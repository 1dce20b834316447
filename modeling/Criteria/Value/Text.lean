import Criteria.Decimal.Layout
import Criteria.Value.Numeric

/-!
# Values as text

A scalar has a text form for joining and searching: null and false are empty, true
is `1`, a number is written in full. Arrays and objects have none.

Every value has a source form, which denotes it in an expression: numbers that are
no integers show it, and strings stand between double quotes.
-/

namespace Criteria

/-- The decimal numeral of an integer. -/
def intText (n : Int) : String :=
  String.ofList (Decimal.sign (n < 0) ++ Nat.toDigits 10 n.natAbs)

/-- The escape of a character that does not stand for itself between double quotes. -/
def escape : Char → List Char
  | '"' => ['\\', '"']
  | '\\' => ['\\', '\\']
  | '\n' => ['\\', 'n']
  | '\t' => ['\\', 't']
  | '\r' => ['\\', 'r']
  | '\x00' => ['\\', '0']
  | c => [c]

/-- The string literal that denotes `s`. -/
def quote (s : String) : String :=
  String.ofList ('"' :: (s.toList.flatMap escape ++ ['"']))

namespace Numeric

/-- The text of a number as an operand. -/
def text : Numeric → String
  | .int n _ => intText n
  | .float x => String.ofList x.scalarText

end Numeric

namespace Number

/-- The numeral of a number in source text. -/
def source : Number → String
  | .int n _ _ => intText n
  | .float x _ => String.ofList x.sourceText

end Number

namespace Value

/-- The text of a scalar. -/
def text? : Value → Option String
  | .null => some ""
  | .bool b => some (if b then "1" else "")
  | .number n => some n.toNumeric.text
  | .string s => some s
  | .array _ => none
  | .object _ => none

/-- The text of a scalar, or the name of the kind of another value. -/
def label (v : Value) : String :=
  v.text?.getD v.kind.name

mutual

/-- The source text that denotes a value. -/
def source : Value → String
  | .null => "null"
  | .bool b => if b then "true" else "false"
  | .number n => n.source
  | .string s => quote s
  | .array items => "[" ++ String.intercalate ", " (sourceItems items) ++ "]"
  | .object entries => "\x7b" ++ String.intercalate ", " (sourceEntries entries) ++ "\x7d"

def sourceItems : List Value → List String
  | [] => []
  | v :: vs => source v :: sourceItems vs

def sourceEntries : List (String × Value) → List String
  | [] => []
  | (k, v) :: rest => (quote k ++ ": " ++ source v) :: sourceEntries rest

end

end Value

end Criteria
