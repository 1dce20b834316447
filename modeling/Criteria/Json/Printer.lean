import Criteria.Value.Text

/-!
# JSON text of values

The compact form: no blanks, members in the order of the record, numbers as in source
text. In strings the quote, the backslash and the control characters are escaped and
nothing else.
-/

namespace Criteria.Json

def hexDigit (n : Nat) : Char :=
  (Nat.toDigits 16 n).headD '0'

/-- The escape of a character that cannot stand in a JSON string. -/
def escape (c : Char) : List Char :=
  if c = '"' then ['\\', '"']
  else if c = '\\' then ['\\', '\\']
  else if c = '\n' then ['\\', 'n']
  else if c = '\r' then ['\\', 'r']
  else if c = '\t' then ['\\', 't']
  else if c = '\x08' then ['\\', 'b']
  else if c = '\x0C' then ['\\', 'f']
  else if c.toNat < 0x20 then
    ['\\', 'u', '0', '0', hexDigit (c.toNat / 16), hexDigit (c.toNat % 16)]
  else [c]

/-- The JSON string of a text. -/
def string (s : String) : String :=
  String.ofList ('"' :: (s.toList.flatMap escape ++ ['"']))

/-- An object of members whose values are printed already, in the order given. -/
def object (members : List (String × String)) : String :=
  "\x7b" ++ String.intercalate "," (members.map fun m => string m.1 ++ ":" ++ m.2) ++ "\x7d"

def array (items : List String) : String :=
  "[" ++ String.intercalate "," items ++ "]"

mutual

/-- The JSON text of a value. -/
def print : Value → String
  | .null => "null"
  | .bool b => if b then "true" else "false"
  | .number n => n.source
  | .string s => string s
  | .array items => array (printAll items)
  | .object entries => object (printEntries entries)

def printAll : List Value → List String
  | [] => []
  | v :: vs => print v :: printAll vs

def printEntries : List (String × Value) → List (String × String)
  | [] => []
  | (k, v) :: rest => (k, print v) :: printEntries rest

end

end Criteria.Json
