import AdjustableRobust.Json.Reader
import Mathlib.Data.List.Forall2
import Mathlib.Tactic.Common

/-!
# Reading back what is printed

The reader undoes the printer: a document whose numbers are literals of the grammar is read back
from its text as it stands, with the order of its members and repeated names. Each part of the
reader takes exactly what was printed for it from the front of the text and leaves what follows,
so the parts compose; a number is the only part that has to see what follows it.
-/

namespace AdjustableRobust.Json

/-! ## Number literals -/

/-- One or more decimal digits. -/
def IsDigits (cs : List Char) : Prop := cs ≠ [] ∧ ∀ c ∈ cs, c.isDigit = true

/-- The whole part of a literal: no zero in front of other digits. -/
def IsWhole (cs : List Char) : Prop := cs = ['0'] ∨ IsDigits cs ∧ cs.head? ≠ some '0'

/-- The fraction of a literal, which may be absent. -/
def IsFraction (cs : List Char) : Prop := cs = [] ∨ ∃ ds, IsDigits ds ∧ cs = '.' :: ds

/-- The exponent of a literal, which may be absent. -/
def IsExponent (cs : List Char) : Prop :=
  cs = [] ∨ ∃ c sign ds, (c = 'e' ∨ c = 'E') ∧ (sign = [] ∨ sign = ['+'] ∨ sign = ['-']) ∧
    IsDigits ds ∧ cs = c :: sign ++ ds

/-- A literal without its sign: a whole part, and possibly a fraction and an exponent. -/
def IsMagnitude (cs : List Char) : Prop :=
  ∃ whole fraction exponent, IsWhole whole ∧ IsFraction fraction ∧ IsExponent exponent ∧
    cs = whole ++ fraction ++ exponent

/-- A literal: a magnitude, possibly with a minus in front. -/
def IsLiteral (cs : List Char) : Prop :=
  IsMagnitude cs ∨ ∃ magnitude, IsMagnitude magnitude ∧ cs = '-' :: magnitude

/-- The text ends a token that would go on with one of the given characters. -/
def EndsToken (more : Char → Bool) (cs : List Char) : Prop := ∀ c ∈ cs.head?, more c = false

/-- Characters with which a number goes on. -/
def continuesNumber (c : Char) : Bool := c.isDigit || c == '.' || c == 'e' || c == 'E'

/-- The end of the text ends every token. -/
theorem endsToken_nil (more : Char → Bool) : EndsToken more [] := by simp [EndsToken]

/-- A character ends the tokens that do not go on with it. -/
theorem endsToken_cons {more : Char → Bool} {c : Char} {cs : List Char} :
    EndsToken more (c :: cs) ↔ more c = false := by simp [EndsToken]

/-- What ends a token ends one that goes on with fewer characters. -/
theorem EndsToken.mono {more fewer : Char → Bool} {cs : List Char} (h : EndsToken more cs)
    (hle : ∀ c, fewer c = true → more c = true) : EndsToken fewer cs := fun c hc =>
  Bool.eq_false_iff.2 fun hmore => Bool.eq_false_iff.1 (h c hc) (hle c hmore)

/-- Digits are taken up to the first character that is none. -/
theorem digits_append {ds rest : List Char} (h : ∀ c ∈ ds, c.isDigit = true)
    (hrest : EndsToken Char.isDigit rest) : digits (ds ++ rest) = (ds, rest) := by
  have hstop : rest.takeWhile Char.isDigit = [] ∧ rest.dropWhile Char.isDigit = rest := by
    cases rest with
    | nil => exact ⟨rfl, rfl⟩
    | cons c rest =>
      have hc := endsToken_cons.1 hrest
      exact ⟨List.takeWhile_cons_of_neg (by simp [hc]), List.dropWhile_cons_of_neg (by simp [hc])⟩
  rw [digits, List.takeWhile_append_of_pos h, List.dropWhile_append_of_pos h, hstop.1, hstop.2,
    List.append_nil]

/-- A whole part begins with a digit. -/
theorem IsWhole.exists_cons {cs : List Char} (h : IsWhole cs) :
    ∃ d ds, cs = d :: ds ∧ d.isDigit = true := by
  rcases h with rfl | ⟨⟨hne, hds⟩, -⟩
  · exact ⟨'0', [], rfl, rfl⟩
  · obtain ⟨d, ds, rfl⟩ := List.exists_cons_of_ne_nil hne
    exact ⟨d, ds, rfl, hds _ List.mem_cons_self⟩

/-- The whole part is taken from the front. -/
theorem wholePart?_append {cs rest : List Char} (h : IsWhole cs)
    (hrest : EndsToken Char.isDigit rest) : wholePart? (cs ++ rest) = some (cs, rest) := by
  rcases h with rfl | ⟨⟨hne, hds⟩, hhead⟩
  · rfl
  · obtain ⟨c, ds, rfl⟩ := List.exists_cons_of_ne_nil hne
    have hc : c ≠ '0' := by simpa using hhead
    rw [List.cons_append, wholePart?.eq_2 _ (by simpa using hc), ← List.cons_append,
      digits_append hds hrest]

/-- The fraction is taken from the front. -/
theorem fractionPart?_append {cs rest : List Char} (h : IsFraction cs)
    (hrest : EndsToken (fun c => c.isDigit || c == '.') rest) :
    fractionPart? (cs ++ rest) = some (cs, rest) := by
  rcases h with rfl | ⟨ds, ⟨hne, hds⟩, rfl⟩
  · cases rest with
    | nil => rfl
    | cons c rest =>
      have hc : c ≠ '.' := by
        rintro rfl
        simp [endsToken_cons] at hrest
      rw [List.nil_append, fractionPart?]
      simpa using hc
  · have hdigit : EndsToken Char.isDigit rest := fun c hc => by
      have := hrest c hc
      simp_all
    obtain ⟨c, ds, rfl⟩ := List.exists_cons_of_ne_nil hne
    rw [List.cons_append, fractionPart?, digits_append hds hdigit]

/-- The exponent is taken from the front. -/
theorem exponentPart?_append {cs rest : List Char} (h : IsExponent cs)
    (hrest : EndsToken continuesNumber rest) : exponentPart? (cs ++ rest) = some (cs, rest) := by
  rcases h with rfl | ⟨c, sign, ds, hc, hsign, ⟨hne, hds⟩, rfl⟩
  · cases rest with
    | nil => rfl
    | cons c rest =>
      have hc : (c == 'e' || c == 'E') = false := by
        have := endsToken_cons.1 hrest
        simp_all [continuesNumber]
      simp [exponentPart?, hc]
  · have hdigits := digits_append hds (hrest.mono fun c hc => by simp [continuesNumber, hc])
    obtain ⟨d, ds, rfl⟩ := List.exists_cons_of_ne_nil hne
    have hd : d ≠ '+' ∧ d ≠ '-' := by
      constructor <;> rintro rfl <;> exact absurd (hds _ List.mem_cons_self) (by decide)
    have hc : (c == 'e' || c == 'E') = true := by simpa using hc
    rcases hsign with rfl | rfl | rfl <;> simp_all [exponentPart?]

/-- A magnitude begins with a digit. -/
theorem IsMagnitude.exists_cons {cs : List Char} (h : IsMagnitude cs) :
    ∃ d tail, cs = d :: tail ∧ d.isDigit = true := by
  obtain ⟨whole, fraction, exponent, hwhole, -, -, rfl⟩ := h
  obtain ⟨d, ds, rfl, hd⟩ := hwhole.exists_cons
  exact ⟨d, _, rfl, hd⟩

/-- A literal begins with a minus or a digit. -/
theorem IsLiteral.exists_cons {cs : List Char} (h : IsLiteral cs) :
    ∃ c tail, cs = c :: tail ∧ (c = '-' ∨ c.isDigit = true) := by
  rcases h with h | ⟨magnitude, -, rfl⟩
  · obtain ⟨d, tail, rfl, hd⟩ := h.exists_cons
    exact ⟨d, tail, rfl, .inr hd⟩
  · exact ⟨'-', magnitude, rfl, .inl rfl⟩

/-- The parts of a magnitude are taken from the front one after the other. -/
theorem IsMagnitude.parts {cs rest : List Char} (h : IsMagnitude cs)
    (hrest : EndsToken continuesNumber rest) : ∃ whole fraction exponent,
      whole ++ (fraction ++ exponent) = cs ∧
      wholePart? (cs ++ rest) = some (whole, fraction ++ (exponent ++ rest)) ∧
      fractionPart? (fraction ++ (exponent ++ rest)) = some (fraction, exponent ++ rest) ∧
      exponentPart? (exponent ++ rest) = some (exponent, rest) := by
  obtain ⟨whole, fraction, exponent, hwhole, hfraction, hexponent, rfl⟩ := h
  have hafterFraction : EndsToken (fun c => c.isDigit || c == '.') (exponent ++ rest) := by
    rcases hexponent with rfl | ⟨c, sign, ds, rfl | rfl, -, -, rfl⟩
    · exact hrest.mono fun c hc => by simp_all [continuesNumber]
    · exact endsToken_cons.2 (by decide)
    · exact endsToken_cons.2 (by decide)
  have hafterWhole : EndsToken Char.isDigit (fraction ++ (exponent ++ rest)) := by
    rcases hfraction with rfl | ⟨ds, -, rfl⟩
    · exact hafterFraction.mono fun c hc => by simp [hc]
    · exact endsToken_cons.2 (by decide)
  refine ⟨whole, fraction, exponent, (List.append_assoc ..).symm, ?_,
    fractionPart?_append hfraction hafterFraction,
    exponentPart?_append hexponent hrest⟩
  rw [List.append_assoc, List.append_assoc]
  exact wholePart?_append hwhole hafterWhole

/-- A literal is taken from the front, if what follows does not go on with a number. -/
theorem numberLiteral?_append {cs rest : List Char} (h : IsLiteral cs)
    (hrest : EndsToken continuesNumber rest) : numberLiteral? (cs ++ rest) = some (cs, rest) := by
  rcases h with h | ⟨magnitude, h, rfl⟩
  · have hhead : ∀ tail, cs ++ rest ≠ '-' :: tail := by
      obtain ⟨d, ds, rfl, hd⟩ := h.exists_cons
      rintro tail heq
      obtain ⟨rfl, -⟩ := List.cons.inj heq
      exact absurd hd (by decide)
    obtain ⟨whole, fraction, exponent, hcs, hwhole, hfraction, hexponent⟩ := h.parts hrest
    simp [numberLiteral?, hwhole, hfraction, hexponent, hcs]
  · obtain ⟨whole, fraction, exponent, hcs, hwhole, hfraction, hexponent⟩ := h.parts hrest
    simp [numberLiteral?, hwhole, hfraction, hexponent, hcs]

/-! ## Strings -/

private theorem hexUnit?_of_stringBody? {a b c d : Char} {rest : List Char}
    {r : Option (List Char) × List Char}
    (h : stringBody? ('\\' :: 'u' :: a :: b :: c :: d :: rest) = some r) :
    ∃ u, hexUnit? a b c d = some u := by
  by_contra hnone
  have hnone : hexUnit? a b c d = none := by simpa [← Option.ne_none_iff_exists'] using hnone
  by_cases hpair : ∃ a' b' c' d' rest',
      rest = '\\' :: 'u' :: a' :: b' :: c' :: d' :: rest'
  · obtain ⟨a', b', c', d', rest', rfl⟩ := hpair
    simp [stringBody?, hnone] at h
  · rw [stringBody?, hnone] at h
    · simp at h
    · exact fun a' b' c' d' rest' heq => hpair ⟨a', b', c', d', rest', heq⟩

/-- A code unit that opens no pair is read on its own. -/
theorem stringBody?_unit {a b c d : Char} {u : Nat} {rest : List Char}
    {r : Option (List Char) × List Char} (hunit : hexUnit? a b c d = some u)
    (hu : isLeading u = false) (hrest : stringBody? rest = some r) :
    stringBody? ('\\' :: 'u' :: a :: b :: c :: d :: rest) =
      some (prepend (unitChar? u) r) := by
  by_cases hpair : ∃ a' b' c' d' rest',
      rest = '\\' :: 'u' :: a' :: b' :: c' :: d' :: rest'
  · obtain ⟨a', b', c', d', rest', rfl⟩ := hpair
    obtain ⟨v, hv⟩ := hexUnit?_of_stringBody? hrest
    rw [stringBody?]
    simp [hunit, hv, hu, hrest]
  · rw [stringBody?]
    · simp [hunit, hrest]
    · exact fun a' b' c' d' rest' heq => hpair ⟨a', b', c', d', rest', heq⟩

/-- A simple escape is read as its character. -/
theorem stringBody?_escape {c x : Char} {rest : List Char} {r : Option (List Char) × List Char}
    (hc : simpleEscape? c = some x) (hrest : stringBody? rest = some r) :
    stringBody? ('\\' :: c :: rest) = some (prepend (some x) r) := by
  have hne : c ≠ 'u' := by
    rintro rfl
    simp [simpleEscape?] at hc
  rw [stringBody?]
  · simp [hc, hrest]
  all_goals simp [hne]

/-- A character that needs no escape is read as it stands. -/
theorem stringBody?_plain {c : Char} {rest : List Char} {r : Option (List Char) × List Char}
    (hquote : c ≠ '"') (hslash : c ≠ '\\') (hc : ¬ c.toNat < 0x20)
    (hrest : stringBody? rest = some r) : stringBody? (c :: rest) = some (prepend (some c) r) := by
  rw [stringBody?]
  · simp [hslash, hc, hrest]
  all_goals simp [hquote, hslash]

/-- Control characters are written with their number. -/
theorem hexUnit?_hexDigit :
    ∀ n < 0x20, hexUnit? '0' '0' (hexDigit (n / 16)) (hexDigit (n % 16)) = some n := by
  decide

/-- A character is read back from what is written for it. -/
theorem stringBody?_escapeChar {c : Char} {rest : List Char} {r : Option (List Char) × List Char}
    (hrest : stringBody? rest = some r) :
    stringBody? (escapeChar c ++ rest) = some (prepend (some c) r) := by
  rw [escapeChar]
  split_ifs with hquote hslash _ _ _ _ _ hcontrol
  -- seven characters have escapes of their own
  iterate 7
    · subst c
      exact stringBody?_escape (by decide) hrest
  · have hunit : unitChar? c.toNat = some c := by
      have hu : (isLeading c.toNat || isTrailing c.toNat) = false := by
        simp [isLeading, isTrailing]
        omega
      rw [unitChar?, hu]
      simp
    rw [← hunit]
    refine stringBody?_unit (hexUnit?_hexDigit _ hcontrol) ?_ hrest
    simp [isLeading]
    omega
  · exact stringBody?_plain hquote hslash hcontrol hrest

/-- A string is read back up to its closing quote. -/
theorem stringBody?_append (cs rest : List Char) :
    stringBody? (cs.flatMap escapeChar ++ '"' :: rest) = some (some cs, rest) := by
  induction cs with
  | nil => rw [List.flatMap_nil, List.nil_append, stringBody?]
  | cons c cs ih =>
    rw [List.flatMap_cons, List.append_assoc, stringBody?_escapeChar ih]
    rfl

/-! ## Printed values -/

@[simp]
private theorem print_null : print .null = ['n', 'u', 'l', 'l'] := rfl

@[simp]
private theorem print_true : print (.bool true) = ['t', 'r', 'u', 'e'] := rfl

@[simp]
private theorem print_false : print (.bool false) = ['f', 'a', 'l', 's', 'e'] := rfl

@[simp]
private theorem print_number (literal : List Char) : print (.number literal) = literal := rfl

@[simp]
private theorem print_string (s : String) : print (.string s) = quote s := rfl

@[simp]
private theorem print_array (items : List Json) :
    print (.array items) = '[' :: printItems items ++ [']'] :=
  rfl

@[simp]
private theorem print_object (members : List (String × Json)) :
    print (.object members) = '\x7b' :: printMembers members ++ ['\x7d'] := rfl

@[simp]
private theorem printItems_nil : printItems [] = [] := rfl

@[simp]
private theorem printItems_singleton (item : Json) : printItems [item] = print item := rfl

/-- A comma follows every item but the last. -/
theorem printItems_cons (item : Json) {items : List Json} (hne : items ≠ []) :
    printItems (item :: items) = print item ++ ',' :: printItems items := by
  obtain ⟨next, items, rfl⟩ := List.exists_cons_of_ne_nil hne
  rfl

@[simp]
private theorem printMembers_nil : printMembers [] = [] := rfl

@[simp]
private theorem printMembers_singleton (name : String) (value : Json) :
    printMembers [(name, value)] = quote name ++ ':' :: print value := rfl

/-- A comma follows every member but the last. -/
theorem printMembers_cons (name : String) (value : Json) {members : List (String × Json)}
    (hne : members ≠ []) : printMembers ((name, value) :: members) =
      quote name ++ ':' :: print value ++ ',' :: printMembers members := by
  obtain ⟨next, members, rfl⟩ := List.exists_cons_of_ne_nil hne
  rfl

/-! ## Values -/

/-- The numbers of the value are literals and nothing in it is illegible. -/
inductive WellFormed : Json → Prop where
  | null : WellFormed .null
  | bool (value : Bool) : WellFormed (.bool value)
  | number {literal : List Char} (h : IsLiteral literal) : WellFormed (.number literal)
  | string (value : String) : WellFormed (.string value)
  | array {items : List Json} (h : ∀ item ∈ items, WellFormed item) : WellFormed (.array items)
  | object {members : List (String × Json)} (h : ∀ member ∈ members, WellFormed member.2) :
    WellFormed (.object members)

/-- The text of a value begins with neither a blank nor a closing bracket. -/
theorem WellFormed.exists_cons {j : Json} (h : WellFormed j) :
    ∃ c tail, j.print = c :: tail ∧ isBlank c = false ∧ c ≠ ']' := by
  cases h with
  | null => exact ⟨'n', _, rfl, by decide⟩
  | bool value =>
    cases value with
    | true => exact ⟨'t', _, print_true, by decide⟩
    | false => exact ⟨'f', _, print_false, by decide⟩
  | number h =>
    obtain ⟨c, tail, rfl, hc⟩ := h.exists_cons
    refine ⟨c, tail, rfl, ?_⟩
    rcases hc with rfl | hc
    · decide
    · constructor
      · rw [Bool.eq_false_iff]
        intro hblank
        simp only [isBlank, Bool.or_eq_true, beq_iff_eq] at hblank
        rcases hblank with ((rfl | rfl) | rfl) | rfl <;> exact absurd hc (by decide)
      · rintro rfl
        exact absurd hc (by decide)
  | string value => exact ⟨'"', _, print_string value, by decide⟩
  | array h => exact ⟨'[', _, print_array _, by decide⟩
  | object h => exact ⟨'\x7b', _, print_object _, by decide⟩

/-- The value is read from the front of its text, if what follows ends the text of a number. As
much fuel as there are characters suffices. -/
def ReadsBack (j : Json) : Prop := ∀ fuel rest, j.print.length ≤ fuel →
  EndsToken continuesNumber rest → readValue? fuel (j.print ++ rest) = some (j, rest)

/-- Nothing is skipped in front of a character that is not blank. -/
theorem skipBlanks_cons {c : Char} {cs : List Char} (hc : isBlank c = false) :
    skipBlanks (c :: cs) = c :: cs :=
  List.dropWhile_cons_of_neg (by simp [hc])

/-- A number is read back. -/
theorem readsBack_number {literal : List Char} (h : IsLiteral literal) :
    ReadsBack (.number literal) := by
  intro fuel rest hfuel hrest
  obtain ⟨c, tail, hcons, hblank, -⟩ := (WellFormed.number h).exists_cons
  rw [print_number] at hcons hfuel ⊢
  obtain ⟨fuel, rfl⟩ : ∃ n, fuel = n + 1 :=
    ⟨fuel - 1, by rw [hcons, List.length_cons] at hfuel; omega⟩
  have hliteral := numberLiteral?_append h hrest
  obtain ⟨c', tail', hcons', hc⟩ := h.exists_cons
  obtain ⟨rfl, rfl⟩ := List.cons.inj (hcons.symm.trans hcons')
  have hother : c ≠ '"' ∧ c ≠ '[' ∧ c ≠ '\x7b' ∧ c ≠ 'n' ∧ c ≠ 't' ∧ c ≠ 'f' := by
    refine ⟨?_, ?_, ?_, ?_, ?_, ?_⟩ <;> rintro rfl <;> simp at hc
  rw [hcons, List.cons_append] at hliteral ⊢
  rw [readValue?, skipBlanks_cons hblank]
  simp [hother, hliteral]

/-- Items are read back up to the bracket that closes them. -/
theorem readItems?_append {items : List Json} (hne : items ≠ [])
    (h : ∀ item ∈ items, ReadsBack item) (rest : List Char) :
    ∀ fuel, (printItems items).length < fuel →
      readItems? fuel (printItems items ++ ']' :: rest) = some (items, rest) := by
  induction items with
  | nil => exact absurd rfl hne
  | cons item items ih =>
    intro fuel hfuel
    obtain ⟨fuel, rfl⟩ : ∃ n, fuel = n + 1 := ⟨fuel - 1, by omega⟩
    obtain ⟨hitem, hitems⟩ := List.forall_mem_cons.1 h
    by_cases hlast : items = []
    · subst hlast
      have hread := hitem fuel (']' :: rest) (by rw [printItems_singleton] at hfuel; omega)
        (endsToken_cons.2 (by decide))
      rw [printItems_singleton, readItems?, hread]
      simp [skipBlanks_cons (show isBlank ']' = false by decide)]
    · rw [printItems_cons item hlast, List.length_append, List.length_cons] at hfuel
      have hread := hitem fuel (',' :: (printItems items ++ ']' :: rest)) (by omega)
        (endsToken_cons.2 (by decide))
      rw [printItems_cons item hlast, List.append_assoc, List.cons_append, readItems?, hread]
      simp [skipBlanks_cons (show isBlank ',' = false by decide), ih hlast hitems fuel (by omega)]

/-- A member in front of the closing brace is the last one. -/
theorem readMembers?_last {name : String} {value : Json} (h : ReadsBack value) {fuel : Nat}
    (hfuel : value.print.length ≤ fuel) (rest : List Char) :
    readMembers? (fuel + 1) (quote name ++ ':' :: value.print ++ '\x7d' :: rest) =
      some (some [(name, value)], rest) := by
  have hread := h fuel ('\x7d' :: rest) hfuel (endsToken_cons.2 (by decide))
  simp only [quote, List.cons_append, List.append_assoc, List.nil_append]
  rw [readMembers?, skipBlanks_cons (by decide)]
  simp [stringBody?_append, skipBlanks_cons (show isBlank ':' = false by decide),
    skipBlanks_cons (show isBlank '\x7d' = false by decide), hread]

/-- A member in front of a comma precedes the others. -/
theorem readMembers?_more {name : String} {value : Json} (h : ReadsBack value) {fuel : Nat}
    (hfuel : value.print.length ≤ fuel) {rest left : List Char} {members : List (String × Json)}
    (hmore : readMembers? fuel rest = some (some members, left)) :
    readMembers? (fuel + 1) (quote name ++ ':' :: value.print ++ ',' :: rest) =
      some (some ((name, value) :: members), left) := by
  have hread := h fuel (',' :: rest) hfuel (endsToken_cons.2 (by decide))
  simp only [quote, List.cons_append, List.append_assoc, List.nil_append]
  rw [readMembers?, skipBlanks_cons (by decide)]
  simp [stringBody?_append, skipBlanks_cons (show isBlank ':' = false by decide),
    skipBlanks_cons (show isBlank ',' = false by decide), hread, hmore]

/-- Members are read back up to the brace that closes them. -/
theorem readMembers?_append {members : List (String × Json)} (hne : members ≠ [])
    (h : ∀ member ∈ members, ReadsBack member.2) (rest : List Char) :
    ∀ fuel, (printMembers members).length < fuel →
      readMembers? fuel (printMembers members ++ '\x7d' :: rest) = some (some members, rest) := by
  induction members with
  | nil => exact absurd rfl hne
  | cons member members ih =>
    intro fuel hfuel
    obtain ⟨name, value⟩ := member
    obtain ⟨fuel, rfl⟩ : ∃ n, fuel = n + 1 := ⟨fuel - 1, by omega⟩
    obtain ⟨hvalue, hmembers⟩ := List.forall_mem_cons.1 h
    change ReadsBack value at hvalue
    by_cases hlast : members = []
    · subst hlast
      rw [printMembers_singleton, List.length_append, List.length_cons] at hfuel
      exact readMembers?_last hvalue (by omega) rest
    · rw [printMembers_cons name value hlast, List.length_append, List.length_append,
        List.length_cons, List.length_cons] at hfuel
      rw [printMembers_cons name value hlast, List.append_assoc, List.cons_append]
      exact readMembers?_more hvalue (by omega) (ih hlast hmembers fuel (by omega))

private theorem printItems_eq_cons {items : List Json} (hne : items ≠ [])
    (h : ∀ item ∈ items, WellFormed item) :
    ∃ c tail, printItems items = c :: tail ∧ isBlank c = false ∧ c ≠ ']' := by
  obtain ⟨item, items, rfl⟩ := List.exists_cons_of_ne_nil hne
  obtain ⟨c, tail, hprint, hc⟩ := (h item List.mem_cons_self).exists_cons
  by_cases hlast : items = []
  · subst hlast
    exact ⟨c, tail, hprint, hc⟩
  · exact ⟨c, _, by rw [printItems_cons item hlast, hprint, List.cons_append], hc⟩

private theorem printMembers_eq_cons {members : List (String × Json)} (hne : members ≠ []) :
    ∃ tail, printMembers members = '"' :: tail := by
  obtain ⟨⟨name, value⟩, members, rfl⟩ := List.exists_cons_of_ne_nil hne
  by_cases hlast : members = []
  · subst hlast
    exact ⟨_, rfl⟩
  · exact ⟨_, by rw [printMembers_cons name value hlast, quote]; rfl⟩

/-- Every well-formed value is read back. -/
theorem WellFormed.readsBack {j : Json} (h : WellFormed j) : ReadsBack j := by
  induction h with
  | number h => exact readsBack_number h
  | null =>
    rintro (_ | fuel) rest hfuel -
    · simp at hfuel
    · rfl
  | bool value =>
    rintro (_ | fuel) rest hfuel -
    · cases value <;> simp at hfuel
    · cases value <;> rfl
  | string value =>
    rintro (_ | fuel) rest hfuel -
    · simp [quote] at hfuel
    · simp only [print_string, quote, List.cons_append, List.append_assoc, List.nil_append]
      rw [readValue?, skipBlanks_cons (by decide)]
      simp [stringBody?_append, ofLegible?]
  | @array items h ih =>
    rintro (_ | fuel) rest hfuel -
    · simp at hfuel
    simp only [print_array, List.cons_append, List.append_assoc, List.nil_append, List.length_cons,
      List.length_append, List.length_nil] at hfuel ⊢
    rw [readValue?, skipBlanks_cons (by decide)]
    by_cases hempty : items = []
    · subst hempty
      rfl
    · have hread := readItems?_append hempty ih rest fuel (by omega)
      obtain ⟨c, tail, hcons, hblank, hc⟩ := printItems_eq_cons hempty h
      rw [hcons, List.cons_append] at hread ⊢
      simp [skipBlanks_cons hblank, hc, hread]
  | @object members h ih =>
    rintro (_ | fuel) rest hfuel -
    · simp at hfuel
    simp only [print_object, List.cons_append, List.append_assoc, List.nil_append,
      List.length_cons, List.length_append, List.length_nil] at hfuel ⊢
    rw [readValue?, skipBlanks_cons (by decide)]
    by_cases hempty : members = []
    · subst hempty
      rfl
    · have hread := readMembers?_append hempty ih rest fuel (by omega)
      obtain ⟨tail, hcons⟩ := printMembers_eq_cons hempty
      rw [hcons, List.cons_append] at hread ⊢
      simp [skipBlanks_cons (show isBlank '"' = false by decide), hread, ofLegible?]

/-- The text of a well-formed value holds the value. -/
theorem WellFormed.ofText?_text {j : Json} (h : WellFormed j) : ofText? j.text = some j := by
  have hread := h.readsBack (2 * j.print.length + 2) [] (by omega) (endsToken_nil _)
  rw [List.append_nil] at hread
  rw [ofText?, text, String.toList_ofList, ofChars?, hread]
  rfl

/-- Well-formed values with the same text are equal. -/
theorem WellFormed.text_inj {j j' : Json} (h : WellFormed j) (h' : WellFormed j') :
    j.text = j'.text ↔ j = j' := by
  refine ⟨fun heq => ?_, congrArg text⟩
  have hread := h.ofText?_text
  rw [heq, h'.ofText?_text] at hread
  exact (Option.some.inj hread).symm

end AdjustableRobust.Json
