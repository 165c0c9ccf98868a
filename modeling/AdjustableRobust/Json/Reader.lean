import AdjustableRobust.Json.Basic

/-!
# Reading JSON documents

A strict reader: one value, blanks around it, nothing else. Numbers follow the grammar of JSON
exactly, strings hold no raw control character. A surrogate without a partner is well formed; what
it stands in is illegible. Each step returns what it read together with the characters that are
left.
-/

namespace AdjustableRobust.Json

/-- The blanks of JSON. -/
def isBlank (c : Char) : Bool := c == ' ' || c == '\n' || c == '\t' || c == '\r'

/-- The characters from the first one that is not blank. -/
def skipBlanks (cs : List Char) : List Char := cs.dropWhile isBlank

/-- The leading digits and the rest. -/
def digits (cs : List Char) : List Char × List Char :=
  (cs.takeWhile Char.isDigit, cs.dropWhile Char.isDigit)

/-- Value of a list of decimal digits. -/
def digitsValue (cs : List Char) : Nat :=
  cs.foldl (fun n c => 10 * n + (c.toNat - '0'.toNat)) 0

/-- Whole part of a number: a single zero, or digits that start with another one. -/
def wholePart? : List Char → Option (List Char × List Char)
  | '0' :: rest => some (['0'], rest)
  | cs => match digits cs with
    | ([], _) => none
    | found => some found

/-- Fraction of a number, if a point follows: at least one digit. -/
def fractionPart? : List Char → Option (List Char × List Char)
  | '.' :: cs => match digits cs with
    | ([], _) => none
    | (ds, rest) => some ('.' :: ds, rest)
  | cs => some ([], cs)

/-- Exponent of a number, if its letter follows: an optional sign and at least one digit. -/
def exponentPart? : List Char → Option (List Char × List Char)
  | [] => some ([], [])
  | c :: cs =>
    if c == 'e' || c == 'E' then
      let (sign, body) := match cs with
        | '+' :: body => (['+'], body)
        | '-' :: body => (['-'], body)
        | body => ([], body)
      match digits body with
      | ([], _) => none
      | (ds, rest) => some (c :: sign ++ ds, rest)
    else some ([], c :: cs)

/-- The number literal at the front of the text. -/
def numberLiteral? (cs : List Char) : Option (List Char × List Char) := do
  let (sign, cs) := match cs with
    | '-' :: rest => (['-'], rest)
    | cs => ([], cs)
  let (whole, cs) ← wholePart? cs
  let (fraction, cs) ← fractionPart? cs
  let (exponent, cs) ← exponentPart? cs
  return (sign ++ whole ++ fraction ++ exponent, cs)

/-- A number literal taken apart: `± digits * 10 ^ exponent`. -/
def literalParts (literal : List Char) : Bool × Nat × Int :=
  let (negative, cs) := match literal with
    | '-' :: rest => (true, rest)
    | cs => (false, cs)
  let (whole, cs) := digits cs
  let (fraction, cs) := match cs with
    | '.' :: rest => digits rest
    | cs => ([], cs)
  let exponent : Int := match cs with
    | _ :: '-' :: ds => -(digitsValue ds : Int)
    | _ :: '+' :: ds => digitsValue ds
    | _ :: ds => digitsValue ds
    | [] => 0
  (negative, digitsValue (whole ++ fraction), exponent - fraction.length)

/-- Value of a hexadecimal digit. -/
def hexValue? (c : Char) : Option Nat :=
  if c.isDigit then some (c.toNat - '0'.toNat)
  else if 'a' ≤ c && c ≤ 'f' then some (c.toNat - 'a'.toNat + 10)
  else if 'A' ≤ c && c ≤ 'F' then some (c.toNat - 'A'.toNat + 10)
  else none

/-- Value of four hexadecimal digits. -/
def hexUnit? (a b c d : Char) : Option Nat := do
  return ((← hexValue? a) * 16 + (← hexValue? b)) * 256 + (← hexValue? c) * 16 + (← hexValue? d)

/-- The character a simple escape stands for. -/
def simpleEscape? (c : Char) : Option Char :=
  if c = '"' then some '"'
  else if c = '\\' then some '\\'
  else if c = '/' then some '/'
  else if c = 'b' then some '\x08'
  else if c = 'f' then some '\x0c'
  else if c = 'n' then some '\n'
  else if c = 'r' then some '\r'
  else if c = 't' then some '\t'
  else none

/-- Whether a code unit opens a surrogate pair. -/
def isLeading (u : Nat) : Bool := 0xD800 ≤ u && u < 0xDC00

/-- Whether a code unit closes a surrogate pair. -/
def isTrailing (u : Nat) : Bool := 0xDC00 ≤ u && u < 0xE000

/-- The character of a code unit on its own. A surrogate stands for none. -/
def unitChar? (u : Nat) : Option Char :=
  if isLeading u || isTrailing u then none else some (Char.ofNat u)

/-- Put a character in front of what was read; without one the text becomes illegible. -/
def prepend (c? : Option Char) :
    Option (List Char) × List Char → Option (List Char) × List Char
  | (some cs, rest) => (c?.map (· :: cs), rest)
  | (none, rest) => (none, rest)

/-- Characters of a string after its opening quote, up to and without the closing one. There are
none if a surrogate has no partner. -/
def stringBody? : List Char → Option (Option (List Char) × List Char)
  | [] => none
  | '"' :: rest => some (some [], rest)
  | '\\' :: 'u' :: a :: b :: c :: d :: '\\' :: 'u' :: a' :: b' :: c' :: d' :: rest => do
    let first ← hexUnit? a b c d
    let second ← hexUnit? a' b' c' d'
    if isLeading first && isTrailing second then
      let joined := Char.ofNat (0x10000 + (first - 0xD800) * 0x400 + (second - 0xDC00))
      return prepend (some joined) (← stringBody? rest)
    else
      let tail ← stringBody? ('\\' :: 'u' :: a' :: b' :: c' :: d' :: rest)
      return prepend (unitChar? first) tail
  | '\\' :: 'u' :: a :: b :: c :: d :: rest => do
    let unit ← hexUnit? a b c d
    return prepend (unitChar? unit) (← stringBody? rest)
  | '\\' :: c :: rest => do
    let c ← simpleEscape? c
    return prepend (some c) (← stringBody? rest)
  | c :: rest =>
    if c.toNat < 0x20 || c = '\\' then none
    else do return prepend (some c) (← stringBody? rest)

/-- The text after a given word, if the text starts with it. -/
def afterWord? (word : List Char) (cs : List Char) : Option (List Char) :=
  if cs.take word.length = word then some (cs.drop word.length) else none

/-- A value, if it was legible. -/
def ofLegible? (value? : Option Json) : Json := value?.getD .illegible

mutual

/-- The value at the front of the text. The fuel bounds the number of steps. -/
def readValue? : Nat → List Char → Option (Json × List Char)
  | 0, _ => none
  | fuel + 1, cs =>
    match skipBlanks cs with
    | [] => none
    | '"' :: rest => do
      let (cs?, rest) ← stringBody? rest
      return (ofLegible? (cs?.map fun cs => .string (String.ofList cs)), rest)
    | '[' :: rest =>
      match skipBlanks rest with
      | ']' :: rest => some (.array [], rest)
      | rest => do
        let (items, rest) ← readItems? fuel rest
        return (.array items, rest)
    | '\x7b' :: rest =>
      match skipBlanks rest with
      | '\x7d' :: rest => some (.object [], rest)
      | rest => do
        let (members?, rest) ← readMembers? fuel rest
        return (ofLegible? (members?.map .object), rest)
    | 'n' :: rest => do return (.null, ← afterWord? "ull".toList rest)
    | 't' :: rest => do return (.bool true, ← afterWord? "rue".toList rest)
    | 'f' :: rest => do return (.bool false, ← afterWord? "alse".toList rest)
    | cs => do
      let (literal, rest) ← numberLiteral? cs
      return (.number literal, rest)

/-- Items up to the closing bracket. -/
def readItems? : Nat → List Char → Option (List Json × List Char)
  | 0, _ => none
  | fuel + 1, cs => do
    let (item, rest) ← readValue? fuel cs
    match skipBlanks rest with
    | ',' :: rest =>
      let (items, rest) ← readItems? fuel rest
      return (item :: items, rest)
    | ']' :: rest => return ([item], rest)
    | _ => none

/-- Members up to the closing brace. There are none if a name is illegible. -/
def readMembers? : Nat → List Char → Option (Option (List (String × Json)) × List Char)
  | 0, _ => none
  | fuel + 1, cs =>
    match skipBlanks cs with
    | '"' :: rest => do
      let (name?, rest) ← stringBody? rest
      match skipBlanks rest with
      | ':' :: rest =>
        let (value, rest) ← readValue? fuel rest
        let first? := name?.map fun name => (String.ofList name, value)
        match skipBlanks rest with
        | ',' :: rest =>
          let (members?, rest) ← readMembers? fuel rest
          return (do return (← first?) :: (← members?), rest)
        | '\x7d' :: rest => return (first?.map fun first => [first], rest)
        | _ => none
      | _ => none
    | _ => none

end

/-- The single value that a text holds. -/
def ofChars? (cs : List Char) : Option Json := do
  let (value, rest) ← readValue? (2 * cs.length + 2) cs
  if (skipBlanks rest).isEmpty then some value else none

/-- The single value that a text holds. -/
def ofText? (s : String) : Option Json := ofChars? s.toList

end AdjustableRobust.Json
