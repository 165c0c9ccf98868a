import AdjustableRobust.Exchange.Number
import AdjustableRobust.Proofs.Decimal.Literals
import AdjustableRobust.Proofs.Decimal.Reading

/-!
# Reading doubles back

Every finite double is read back from what is printed for it. Whatever the layout, the parts of the
printed literal make up the shortest decimal of the double, and this decimal lies around the double.
-/

namespace AdjustableRobust.Decimal

open Json

/-! ## Digits -/

/-- Digits are read as the number that they are written for. -/
theorem digitsValue_toDigits (n : ℕ) : digitsValue (Nat.toDigits 10 n) = n :=
  Nat.ofDigitChars_ten_toDigits

/-- Zeros in front change nothing. -/
theorem digitsValue_zeros_append (n : ℕ) (ds : List Char) :
    digitsValue (List.replicate n '0' ++ ds) = digitsValue ds := by
  change Nat.ofDigitChars 10 _ 0 = Nat.ofDigitChars 10 _ 0
  rw [Nat.ofDigitChars_append, Nat.ofDigitChars_replicate_zero, Nat.mul_zero]

/-- Zeros at the end multiply by a power of ten. -/
theorem digitsValue_append_zeros (ds : List Char) (n : ℕ) :
    digitsValue (ds ++ List.replicate n '0') = 10 ^ n * digitsValue ds := by
  change Nat.ofDigitChars 10 _ 0 = _ * Nat.ofDigitChars 10 _ 0
  rw [Nat.ofDigitChars_append, Nat.ofDigitChars_replicate_zero]

/-! ## Literals -/

/-- The sign of a literal, and its magnitude. -/
def signPart : List Char → Bool × List Char
  | '-' :: rest => (true, rest)
  | cs => (false, cs)

/-- Fraction digits after the whole part of a magnitude. -/
def fractionDigits : List Char → List Char × List Char
  | '.' :: ds => Json.digits ds
  | cs => ([], cs)

/-- Exponent at the end of a magnitude. -/
def exponentValue : List Char → ℤ
  | _ :: '-' :: ds => -(digitsValue ds : ℤ)
  | _ :: '+' :: ds => digitsValue ds
  | _ :: ds => digitsValue ds
  | [] => 0

/-- Digits and power of ten of a magnitude. -/
def magnitudeParts (cs : List Char) : ℕ × ℤ :=
  let (whole, cs) := Json.digits cs
  let (fraction, cs) := fractionDigits cs
  (digitsValue (whole ++ fraction), exponentValue cs - fraction.length)

/-- A literal has a sign and a magnitude. -/
theorem literalParts_eq (cs : List Char) :
    literalParts cs = ((signPart cs).1, magnitudeParts (signPart cs).2) := rfl

/-- A magnitude has no sign. -/
theorem signPart_of_isMagnitude {cs : List Char} (h : IsMagnitude cs) :
    signPart cs = (false, cs) := by
  obtain ⟨d, tail, rfl, hdigit⟩ := h.exists_cons
  have hd : d ≠ '-' := by
    rintro rfl
    exact absurd hdigit (by decide)
  exact signPart.eq_2 _ (by simpa using hd)

/-- The parts of a magnitude that begins with the given digits. -/
theorem magnitudeParts_append {whole rest : List Char} (hwhole : IsDigits whole)
    (hrest : EndsToken Char.isDigit rest) :
    magnitudeParts (whole ++ rest) = (digitsValue (whole ++ (fractionDigits rest).1),
      exponentValue (fractionDigits rest).2 - (fractionDigits rest).1.length) := by
  rw [magnitudeParts, digits_append hwhole.2 hrest]

/-- All digits after a point are the fraction. -/
theorem fractionDigits_append {ds tail : List Char} (h : ∀ c ∈ ds, c.isDigit = true)
    (htail : EndsToken Char.isDigit tail) : fractionDigits ('.' :: (ds ++ tail)) = (ds, tail) :=
  digits_append h htail

/-- A fraction may end a literal. -/
theorem fractionDigits_point {ds : List Char} (h : ∀ c ∈ ds, c.isDigit = true) :
    fractionDigits ('.' :: ds) = (ds, []) := by
  have hall := fractionDigits_append h (endsToken_nil _)
  rwa [List.append_nil] at hall

/-- The parts of a magnitude make up a number. -/
def IsReadAs (cs : List Char) (v : ℚ) : Prop :=
  ∃ n e, magnitudeParts cs = (n, e) ∧ (n * 10 ^ e : ℚ) = v

namespace NumberFormat

variable {f : NumberFormat} {ds : List Char}

/-- Digits that are followed by zeros. -/
theorem isReadAs_zeros (h : IsDigits ds) {e : ℤ} (he : 0 ≤ e) (point : Bool) :
    IsReadAs (ds ++ List.replicate e.toNat '0' ++ if point then ['.', '0'] else [])
      (digitsValue ds * 10 ^ e) := by
  obtain ⟨k, rfl⟩ := Int.eq_ofNat_of_zero_le he
  have hwhole := h.append (isDigit_of_mem_replicate (n := k))
  rw [Int.toNat_natCast]
  cases point with
  | false =>
    refine ⟨_, _, magnitudeParts_append hwhole (endsToken_nil _), ?_⟩
    change (digitsValue (ds ++ List.replicate k '0' ++ []) * 10 ^ (0 : ℤ) : ℚ) = _
    rw [List.append_nil, digitsValue_append_zeros, zpow_natCast]
    push_cast
    ring
  | true =>
    refine ⟨_, _, magnitudeParts_append hwhole (endsToken_cons.2 rfl), ?_⟩
    change (digitsValue (ds ++ List.replicate k '0' ++ List.replicate 1 '0') *
      10 ^ (-1 : ℤ) : ℚ) = _
    rw [digitsValue_append_zeros, digitsValue_append_zeros, zpow_natCast, zpow_neg_one]
    push_cast
    ring

/-- Digits with a point between them. -/
theorem isReadAs_point (h : IsDigits ds) {n : ℕ} (hn : 0 < n) (hn' : n ≤ ds.length) :
    IsReadAs (ds.take n ++ '.' :: ds.drop n) (digitsValue ds * 10 ^ (n - ds.length : ℤ)) := by
  have hfraction : fractionDigits ('.' :: ds.drop n) = (ds.drop n, []) :=
    fractionDigits_point fun c hc => h.2 c (List.mem_of_mem_drop hc)
  refine ⟨_, _, magnitudeParts_append (h.take hn) (endsToken_cons.2 rfl), ?_⟩
  rw [hfraction, List.take_append_drop, List.length_drop]
  congr 2
  change 0 - ((ds.length - n : ℕ) : ℤ) = _
  omega

/-- Digits after a zero, a point and more zeros. -/
theorem isReadAs_small (h : IsDigits ds) (n : ℕ) :
    IsReadAs ('0' :: '.' :: List.replicate n '0' ++ ds)
      (digitsValue ds * 10 ^ (-(n + ds.length) : ℤ)) := by
  have hfraction := fractionDigits_point (h.prepend (isDigit_of_mem_replicate (n := n))).2
  have hzero : IsDigits ['0'] := by simp [IsDigits]
  change IsReadAs (['0'] ++ '.' :: (List.replicate n '0' ++ ds)) _
  refine ⟨_, _, magnitudeParts_append hzero (endsToken_cons.2 rfl), ?_⟩
  rw [hfraction]
  change (digitsValue (List.replicate (n + 1) '0' ++ ds) * _ : ℚ) = _
  rw [digitsValue_zeros_append, List.length_append, List.length_replicate]
  congr 2
  change 0 - ((n + ds.length : ℕ) : ℤ) = _
  omega

/-- A decimal written in full is read as its value. -/
theorem isReadAs_digitsInFull (h : IsDigits ds) (e : ℤ) :
    IsReadAs (f.digitsInFull ds e) (digitsValue ds * 10 ^ e) := by
  have hlength : 0 < ds.length := List.length_pos_iff.2 h.1
  rw [digitsInFull]
  by_cases hwhole : 0 ≤ e
  · rw [if_pos hwhole]
    exact isReadAs_zeros h hwhole f.keepsPoint
  rw [if_neg hwhole]
  split_ifs with hpoint
  · convert isReadAs_point h (n := ((ds.length : ℤ) + e).toNat) (by omega) (by omega) using 3
    omega
  · convert isReadAs_small h (-((ds.length : ℤ) + e)).toNat using 3
    omega

/-- The exponent of a literal is read with its sign. -/
theorem exponentValue_signed (first : ℤ) :
    exponentValue ('e' :: (if first < 0 then '-' else '+') :: Nat.toDigits 10 first.natAbs) =
      first := by
  split
  · change -(digitsValue (Nat.toDigits 10 first.natAbs) : ℤ) = first
    rw [digitsValue_toDigits]
    omega
  · change (digitsValue (Nat.toDigits 10 first.natAbs) : ℤ) = first
    rw [digitsValue_toDigits]
    omega

/-- A decimal written with an exponent is read as its value. -/
theorem isReadAs_digitsWithExponent (h : IsDigits ds) (first : ℤ) :
    IsReadAs (digitsWithExponent ds first) (digitsValue ds * 10 ^ (first + 1 - ds.length)) := by
  obtain ⟨d, ds, rfl⟩ := List.exists_cons_of_ne_nil h.1
  obtain ⟨tail, htail⟩ : ∃ tail, 'e' :: (if first < 0 then '-' else '+') ::
    Nat.toDigits 10 first.natAbs = tail := ⟨_, rfl⟩
  have hends : EndsToken Char.isDigit tail := htail ▸ endsToken_cons.2 rfl
  have hexponent : exponentValue tail = first := htail ▸ exponentValue_signed first
  have hfirst : IsDigits [d] := h.take (n := 1) (by omega)
  cases ds with
  | nil =>
    have hshape : digitsWithExponent [d] first = [d] ++ tail := by rw [← htail]; rfl
    have hfraction : fractionDigits tail = ([], tail) := by rw [← htail]; rfl
    rw [hshape]
    refine ⟨_, _, magnitudeParts_append hfirst hends, ?_⟩
    rw [hfraction, hexponent]
    simp
  | cons d' ds =>
    have hshape : digitsWithExponent (d :: d' :: ds) first =
        [d] ++ '.' :: (d' :: ds ++ tail) := by rw [← htail]; rfl
    rw [hshape]
    refine ⟨_, _, magnitudeParts_append hfirst (endsToken_cons.2 rfl), ?_⟩
    rw [fractionDigits_append (fun c hc => h.2 c (List.mem_cons_of_mem _ hc)) hends, hexponent]
    simp

/-- A decimal is read as its value. -/
theorem isReadAs_decimal (d : Decimal) : IsReadAs (f.decimal d) d.value := by
  have hdigits := isDigits_toDigits d.digits
  rw [decimal]
  split
  · have hread := isReadAs_digitsInFull (f := f) hdigits d.exponent
    rwa [digitsValue_toDigits] at hread
  · have hread := isReadAs_digitsWithExponent hdigits
      ((Nat.toDigits 10 d.digits).length + d.exponent - 1)
    rwa [digitsValue_toDigits, sub_add_cancel, add_sub_cancel_left] at hread

end NumberFormat

/-! ## Doubles -/

/-- A literal is read as a double. -/
theorem ofLiteral?_eq_some {cs : List Char} {negative : Bool} {n : ℕ} {e : ℤ} {x : Float}
    (h : literalParts cs = (negative, n, e)) (hread : toFloat negative n e = x)
    (hx : x.isFinite = true) : ScalarExchange.ofLiteral? cs = some x := by
  change (if (toFloat (literalParts cs).1 (literalParts cs).2.1 (literalParts cs).2.2).isFinite then
    some (toFloat (literalParts cs).1 (literalParts cs).2.1 (literalParts cs).2.2) else none) = _
  rw [h, hread, if_pos hx]

/-- Every finite double is read back from its shortest decimal. -/
theorem ofLiteral?_print {x : Float} (hx : x.isFinite = true) :
    ScalarExchange.ofLiteral? (NumberFormat.exchange.print x).toList = some x := by
  rw [NumberFormat.print]
  rcases finite_cases hx with ⟨negative, heq, hcontent⟩ | ⟨negative, m, q, hd, heq, hcontent⟩
  · rw [hcontent]
    cases negative with
    | false => exact ofLiteral?_eq_some (n := 0) (e := -1) rfl (heq ▸ toFloat_zero false _) hx
    | true => exact ofLiteral?_eq_some (n := 0) (e := -1) rfl (heq ▸ toFloat_zero true _) hx
  · obtain ⟨n, e, hparts, hvalue⟩ :=
      NumberFormat.isReadAs_decimal (f := .exchange) (shortest .even m q)
    have hsign := signPart_of_isMagnitude (NumberFormat.isMagnitude_decimal (f := .exchange)
      (digits_shortest_pos .even hd))
    have hread : toFloat negative n e = x :=
      heq ▸ toFloat_of_mem_interval hd (hvalue ▸ value_shortest_mem .even hd) negative
    rw [hcontent]
    refine ofLiteral?_eq_some ?_ hread hx
    dsimp only
    rw [String.toList_ofList, literalParts_eq, ← hparts]
    cases negative with
    | false => exact congrArg (fun p => (p.1, magnitudeParts p.2)) hsign
    | true => rfl

end AdjustableRobust.Decimal
