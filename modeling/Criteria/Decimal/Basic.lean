import Criteria.Binary64.Basic
import Criteria.Text.Basic

/-!
# Decimal numbers

A decimal number is a sign, an integer and a power of ten. Numerals of every
kind are read as decimal numbers first; the binary number of a numeral is the
nearest one to its decimal number, however many digits it has.
-/

namespace Criteria

structure Decimal where
  negative : Bool
  digits : Nat
  exponent : Int
  deriving DecidableEq, Repr

namespace Decimal

/-- The decimal number with the digits `whole` before the point, the digits
`fraction` after it, and a power of ten. -/
def ofParts (negative : Bool) (whole fraction : List Char) (exponent : Int) : Decimal where
  negative := negative
  digits := Text.digitsValue (whole ++ fraction)
  exponent := exponent - fraction.length

/-- The nearest binary number. Powers of ten so large or so small that they decide
the answer alone are not computed. -/
def toBinary64 (d : Decimal) : Binary64 :=
  if d.digits = 0 then .zero d.negative
  else if 310 < d.exponent then .infinity d.negative
  else if 0 ≤ d.exponent then .ofRatio d.negative (d.digits * 10 ^ d.exponent.toNat) 1
  else if d.exponent + d.digits.log2 + 1 ≤ -324 then .zero d.negative
  else .ofRatio d.negative d.digits (10 ^ (-d.exponent).toNat)

end Decimal

end Criteria
