import Criteria.Config.Setting
import Criteria.Toml.Date

/-!
# Scalars without quotes

Flags, integers, floating numbers, dates and times are words: runs of letters, digits
and a few signs. An underscore may stand between two digits. An integer has no zero in
front and fits in 64 bits; it may be written to another base. A floating number has a
fraction or an exponent and does not exceed the finite range.
-/

namespace Criteria.Toml

/-- The characters of a scalar without quotes. -/
def isWordChar (c : Char) : Bool :=
  Setting.isKeyChar c || c == '+' || c == '.' || c == ':'

/-- The digits of a run in which single underscores may stand between digits. -/
def digits? (isDigit : Char → Bool) : List Char → Option (List Char)
  | [] => none
  | [c] => if isDigit c then some [c] else none
  | c :: '_' :: rest => if isDigit c then (digits? isDigit rest).map (c :: ·) else none
  | c :: rest => if isDigit c then (digits? isDigit rest).map (c :: ·) else none

/-- The digits of a decimal integer, without a zero in front. -/
def wholeDigits? (cs : List Char) : Option (List Char) :=
  (digits? Text.isAsciiDigit cs).filter fun ds => ds.length == 1 || ds.head? != some '0'

/-- The integer that fits in 64 bits with a sign. -/
def fitting? (n : Int) : Option Setting :=
  if Fits n then some (.int n) else none

/-- An integer to a base of at most sixteen. -/
def based? (base : Nat) (cs : List Char) : Option Setting := do
  let digits ← digits? (fun c => (Text.hexValue? c).any (· < base)) cs
  let values ← digits.mapM Text.hexValue?
  fitting? (values.foldl (fun (n d : Nat) => base * n + d) 0 : Nat)

def integer? (cs : List Char) : Option Setting :=
  match cs with
  | '0' :: 'x' :: rest => based? 16 rest
  | '0' :: 'o' :: rest => based? 8 rest
  | '0' :: 'b' :: rest => based? 2 rest
  | _ => do
    let (negative, rest) := Numeral.splitSign cs
    let n : Int := Text.digitsValue (← wholeDigits? rest)
    fitting? (if negative then -n else n)

/-- The exponent of a floating number. -/
def exponent? (cs : List Char) : Option Int := do
  let (negative, rest) := Numeral.splitSign cs
  let n : Int := Text.digitsValue (← digits? Text.isAsciiDigit rest)
  return if negative then -n else n

/-- A numeral with a fraction, an exponent or both. -/
def numeral? (cs : List Char) : Option Numeral := do
  let (negative, body) := Numeral.splitSign cs
  let (mantissa, exponentText) := Numeral.splitAt (fun c => c == 'e' || c == 'E') body
  let (whole, fractionText) := Numeral.splitAt (· == '.') mantissa
  let whole ← wholeDigits? whole
  let fraction ← match fractionText with
    | none => pure none
    | some text => (digits? Text.isAsciiDigit text).map some
  let exponent ← match exponentText with
    | none => pure none
    | some text => (exponent? text).map some
  if fraction.isNone && exponent.isNone then none
  else return ⟨negative, whole, fraction, exponent⟩

def float? (cs : List Char) : Option Setting :=
  match Numeral.splitSign cs with
  | (negative, ['i', 'n', 'f']) => some (.float (.infinity negative))
  | (_, ['n', 'a', 'n']) => some (.float .nan)
  | _ => do
    let x := (← numeral? cs).toBinary64
    if x.isFinite then return .float x else none

/-- The scalar that a word is. -/
def scalar? (cs : List Char) : Option Setting :=
  match cs with
  | ['t', 'r', 'u', 'e'] => some (.flag true)
  | ['f', 'a', 'l', 's', 'e'] => some (.flag false)
  | _ => integer? cs <|> float? cs <|> (dateTime? cs).map fun t => .text (String.ofList t)

end Criteria.Toml
