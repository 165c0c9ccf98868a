/-!
# JSON documents

The value type of exchanged documents, and its compact printed form. Numbers keep the literal
they are written with, so reading a document and printing it again loses no digit.
-/

namespace AdjustableRobust

/-- A JSON value. The members of an object keep their order and may repeat a name. -/
inductive Json where
  | null
  | bool (value : Bool)
  /-- A number, as its literal. -/
  | number (literal : List Char)
  | string (value : String)
  | array (items : List Json)
  | object (members : List (String × Json))
  /-- A string, or an object with the name of a member, in which a surrogate has no partner. It is
  well formed but stands for no text. -/
  | illegible
  deriving Inhabited

namespace Json

/-- Lower-case hexadecimal digit. -/
def hexDigit (n : Nat) : Char := (Nat.digitChar n)

/-- A character of a string as it is written between quotes. Quotes, backslashes and control
characters are escaped, all else stands for itself. -/
def escapeChar (c : Char) : List Char :=
  if c = '"' then ['\\', '"']
  else if c = '\\' then ['\\', '\\']
  else if c = '\n' then ['\\', 'n']
  else if c = '\r' then ['\\', 'r']
  else if c = '\t' then ['\\', 't']
  else if c = '\x08' then ['\\', 'b']
  else if c = '\x0c' then ['\\', 'f']
  else if c.toNat < 0x20 then
    ['\\', 'u', '0', '0', hexDigit (c.toNat / 16), hexDigit (c.toNat % 16)]
  else [c]

/-- A string with its quotes. -/
def quote (s : String) : List Char := '"' :: s.toList.flatMap escapeChar ++ ['"']

mutual

/-- Compact text of a value: no blank stands between its tokens. What is illegible becomes a
surrogate without a partner. -/
def print : Json → List Char
  | .null => "null".toList
  | .bool b => if b then "true".toList else "false".toList
  | .number literal => literal
  | .string s => quote s
  | .array items => '[' :: printItems items ++ [']']
  | .object members => '\x7b' :: printMembers members ++ ['\x7d']
  | .illegible => "\"\\ud800\"".toList

/-- Items separated by commas. -/
def printItems : List Json → List Char
  | [] => []
  | [item] => print item
  | item :: items => print item ++ ',' :: printItems items

/-- Members separated by commas. -/
def printMembers : List (String × Json) → List Char
  | [] => []
  | [(name, value)] => quote name ++ ':' :: print value
  | (name, value) :: members => quote name ++ ':' :: print value ++ ',' :: printMembers members

end

/-- Compact text of a value as a string. -/
def text (j : Json) : String := String.ofList j.print

/-- The first member of an object with the given name. -/
def member? (name : String) : Json → Option Json
  | .object members => (members.find? (·.1 == name)).map (·.2)
  | _ => none

end Json

end AdjustableRobust
