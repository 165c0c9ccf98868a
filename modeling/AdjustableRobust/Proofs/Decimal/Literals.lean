import AdjustableRobust.Proofs.Decimal.Binary64
import AdjustableRobust.Proofs.Json.RoundTrip

/-!
# Printed numbers are literals

A finite double is printed as a number literal of the grammar of JSON: the digits of its shortest
decimal have no zero in front, and the point is put between digits or follows a single zero. What
is not finite has no digits and is written as null.
-/

namespace AdjustableRobust

/-! ## Digits -/

namespace Json

/-- Decimal digits of a number. -/
theorem isDigits_toDigits (n : Nat) : IsDigits (Nat.toDigits 10 n) :=
  ⟨Nat.toDigits_ne_nil, fun _ hc => Nat.isDigit_of_mem_toDigits (by omega) (by omega) hc⟩

/-- The first digit of a positive number is not zero. -/
theorem head?_toDigits {n : Nat} (hn : 0 < n) : (Nat.toDigits 10 n).head? ≠ some '0' := by
  induction n using Nat.strong_induction_on with
  | _ n ih =>
    rw [Nat.toDigits_eq_if (by omega)]
    split
    · next hlt =>
      have hdigit : ∀ d < 10, 0 < d → d.digitChar ≠ '0' := by decide
      simpa using hdigit n hlt hn
    · next hle =>
      rw [List.head?_append_of_ne_nil _ Nat.toDigits_ne_nil]
      exact ih (n / 10) (by omega) (by omega)

variable {ds ds' : List Char}

/-- More digits may follow. -/
theorem IsDigits.append (h : IsDigits ds) (h' : ∀ c ∈ ds', c.isDigit = true) :
    IsDigits (ds ++ ds') :=
  ⟨by simp [h.1], fun c hc => (List.mem_append.1 hc).elim (h.2 c) (h' c)⟩

/-- More digits may stand in front. -/
theorem IsDigits.prepend (h : IsDigits ds) (h' : ∀ c ∈ ds', c.isDigit = true) :
    IsDigits (ds' ++ ds) :=
  ⟨by simp [h.1], fun c hc => (List.mem_append.1 hc).elim (h' c) (h.2 c)⟩

/-- The first digits. -/
theorem IsDigits.take (h : IsDigits ds) {n : Nat} (hn : 0 < n) : IsDigits (ds.take n) :=
  ⟨by simp [h.1]; omega, fun c hc => h.2 c (List.mem_of_mem_take hc)⟩

/-- The digits after the first ones. -/
theorem IsDigits.drop (h : IsDigits ds) {n : Nat} (hn : n < ds.length) : IsDigits (ds.drop n) :=
  ⟨by simpa using hn, fun c hc => h.2 c (List.mem_of_mem_drop hc)⟩

/-- Zeros are digits. -/
theorem isDigit_of_mem_replicate {n : Nat} : ∀ c ∈ List.replicate n '0', c.isDigit = true :=
  fun c hc => by rw [List.eq_of_mem_replicate hc]; decide

end Json

namespace Decimal

open Json

/-! ## Layouts -/

namespace NumberFormat

variable {f : NumberFormat} {digits : List Char}

/-- A decimal written in full is a magnitude. -/
theorem isMagnitude_digitsInFull (h : IsDigits digits) (hhead : digits.head? ≠ some '0')
    (exponent : Int) : IsMagnitude (f.digitsInFull digits exponent) := by
  rw [digitsInFull]
  by_cases hwhole : 0 ≤ exponent
  · have hdigits : IsWhole (digits ++ List.replicate exponent.toNat '0') :=
      .inr ⟨h.append isDigit_of_mem_replicate, by rwa [List.head?_append_of_ne_nil _ h.1]⟩
    have hfraction : IsFraction (if f.keepsPoint then ['.', '0'] else []) := by
      split
      · exact .inr ⟨['0'], by simp [IsDigits], rfl⟩
      · exact .inl rfl
    rw [if_pos hwhole]
    exact ⟨_, _, [], hdigits, hfraction, .inl rfl, by simp⟩
  rw [if_neg hwhole]
  split_ifs with hpoint
  · have hlength : ((digits.length : Int) + exponent).toNat < digits.length := by omega
    have hdigits : IsWhole (digits.take ((digits.length : Int) + exponent).toNat) := by
      refine .inr ⟨h.take (by omega), ?_⟩
      rwa [List.head?_take, if_neg (by omega)]
    exact ⟨_, _, [], hdigits, .inr ⟨_, h.drop hlength, rfl⟩, .inl rfl, by simp⟩
  · have hfraction : IsFraction ('.' :: (List.replicate (-(digits.length + exponent)).toNat '0' ++
        digits)) := .inr ⟨_, h.prepend isDigit_of_mem_replicate, rfl⟩
    exact ⟨['0'], _, [], .inl rfl, hfraction, .inl rfl, by simp⟩

/-- A decimal written with an exponent is a magnitude. -/
theorem isMagnitude_digitsWithExponent (h : IsDigits digits) (hhead : digits.head? ≠ some '0')
    (first : Int) : IsMagnitude (digitsWithExponent digits first) := by
  obtain ⟨d, ds, rfl⟩ := List.exists_cons_of_ne_nil h.1
  have hwhole : IsWhole [d] := .inr ⟨h.take (n := 1) (by omega), by simpa using hhead⟩
  have hexponent : IsExponent ('e' :: (if first < 0 then '-' else '+') ::
      Nat.toDigits 10 first.natAbs) := by
    refine .inr ⟨'e', [if first < 0 then '-' else '+'], _, .inl rfl, ?_, isDigits_toDigits _, rfl⟩
    split <;> simp
  cases ds with
  | nil => exact ⟨[d], [], _, hwhole, .inl rfl, hexponent, by simp [digitsWithExponent]⟩
  | cons d' ds =>
    have hfraction : IsFraction ('.' :: d' :: ds) := .inr ⟨_, h.drop (n := 1) (by simp), rfl⟩
    exact ⟨[d], _, _, hwhole, hfraction, hexponent, by simp [digitsWithExponent]⟩

/-- A positive decimal is written as a magnitude. -/
theorem isMagnitude_decimal {d : Decimal} (hd : 0 < d.digits) : IsMagnitude (f.decimal d) := by
  rw [decimal]
  split
  · exact isMagnitude_digitsInFull (isDigits_toDigits _) (head?_toDigits hd) _
  · exact isMagnitude_digitsWithExponent (isDigits_toDigits _) (head?_toDigits hd) _

end NumberFormat

/-! ## Doubles -/

/-- A finite double is printed as a literal. -/
theorem isLiteral_print {x : Float} (hx : x.isFinite = true) :
    IsLiteral (NumberFormat.exchange.print x).toList := by
  have hzero : IsMagnitude ['0', '.', '0'] :=
    ⟨['0'], ['.', '0'], [], .inl rfl, .inr ⟨['0'], by simp [IsDigits], rfl⟩, .inl rfl, rfl⟩
  rw [NumberFormat.print]
  rcases finite_cases hx with ⟨negative, -, hcontent⟩ | ⟨negative, m, q, hd, -, hcontent⟩
  · rw [hcontent]
    cases negative with
    | false => exact .inl hzero
    | true => exact .inr ⟨_, hzero, rfl⟩
  · have hbody : IsMagnitude (NumberFormat.exchange.decimal (shortest .even m q)) :=
      NumberFormat.isMagnitude_decimal (digits_shortest_pos .even hd)
    rw [hcontent]
    cases negative with
    | false => exact .inl (String.toList_ofList ▸ hbody)
    | true => exact .inr ⟨_, hbody, String.toList_ofList⟩

end Decimal

end AdjustableRobust
