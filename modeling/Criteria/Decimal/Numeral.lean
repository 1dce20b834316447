import Criteria.Decimal.Basic
import Criteria.Text.Blank
import Criteria.Value.Numeric

/-!
# Numerals

A numeral is a sign, digits, perhaps a point with further digits, perhaps an
exponent. It denotes an integer if it has neither point nor exponent and the
integer fits, else the nearest floating number.

`read?` takes a whole text as a numeral: a sign may be `+` or `-`, and digits may be
missing on one side of the point. `ofText?` allows blanks around the numeral as well.
-/

namespace Criteria

structure Numeral where
  negative : Bool
  whole : List Char
  fraction : Option (List Char)
  exponent : Option Int
  deriving DecidableEq, Repr

namespace Numeral

/-- The integer denoted where point and exponent are left out of account. -/
def wholeValue (n : Numeral) : Int :=
  if n.negative then -(Text.digitsValue n.whole : Int) else Text.digitsValue n.whole

def toBinary64 (n : Numeral) : Binary64 :=
  (Decimal.ofParts n.negative n.whole (n.fraction.getD []) (n.exponent.getD 0)).toBinary64

def toNumeric (n : Numeral) : Numeric :=
  if n.fraction.isNone && n.exponent.isNone then .ofInt n.wholeValue n.toBinary64
  else .float n.toBinary64

/-- A leading sign, true for `-`, and the text behind it. -/
def splitSign : List Char → Bool × List Char
  | '-' :: cs => (true, cs)
  | '+' :: cs => (false, cs)
  | cs => (false, cs)

theorem length_splitSign (cs : List Char) : (splitSign cs).2.length ≤ cs.length := by
  unfold splitSign
  split <;> simp

/-- The integer written by an optional sign and at least one digit. -/
def signedInt? (cs : List Char) : Option Int :=
  let (negative, digits) := splitSign cs
  if !digits.isEmpty && digits.all Text.isAsciiDigit then
    let n : Int := Text.digitsValue digits
    some (if negative then -n else n)
  else none

/-- The text before the first character that satisfies `p`, and the text behind that
character if there is one. -/
def splitAt (p : Char → Bool) (cs : List Char) : List Char × Option (List Char) :=
  (cs.takeWhile (!p ·), match cs.dropWhile (!p ·) with
    | [] => none
    | _ :: rest => some rest)

/-- The digits before and after the point. At least one side has a digit. -/
def mantissa? (cs : List Char) : Option (List Char × Option (List Char)) :=
  let (whole, fraction) := splitAt (· == '.') cs
  if whole.all Text.isAsciiDigit && (fraction.getD []).all Text.isAsciiDigit
      && !(whole ++ fraction.getD []).isEmpty then
    some (whole, fraction)
  else none

/-- The numeral that the whole text is. -/
def read? (cs : List Char) : Option Numeral := do
  let (negative, body) := splitSign cs
  let (mantissa, exponentText) := splitAt (fun c => c == 'e' || c == 'E') body
  let (whole, fraction) ← mantissa? mantissa
  match exponentText with
  | none => return ⟨negative, whole, fraction, none⟩
  | some text =>
    let exponent ← signedInt? text
    return ⟨negative, whole, fraction, some exponent⟩

/-- The numeral that the whole text is, blanks at its ends apart. -/
def ofText? (cs : List Char) : Option Numeral := read? (Text.trim cs)

end Numeral

/-- The floating number that the whole text is: a numeral, or a word for infinity or
for no number in any letter case. -/
def Binary64.ofText? (cs : List Char) : Option Binary64 :=
  let (negative, body) := Numeral.splitSign cs
  match Text.toAsciiLower (String.ofList body) with
  | "inf" | "infinity" => some (.infinity negative)
  | "nan" => some .nan
  | _ => (Numeral.read? cs).map Numeral.toBinary64

/-- The number that the whole text of `s` denotes. -/
def Numeric.ofText? (s : String) : Option Numeric :=
  (Numeral.ofText? s.toList).map Numeral.toNumeric

end Criteria
