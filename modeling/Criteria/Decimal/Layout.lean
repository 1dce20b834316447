import Criteria.Binary64.Arithmetic
import Criteria.Decimal.Shortest

/-!
# Written decimal numbers

Two ways to write a finite binary number, both with the fewest digits that read
back. Plain text never uses an exponent and leaves an integral number without a
point; it takes the upper of two equally near neighbours. Source text marks every
number as no integer, by a point or an exponent, changes to an exponent outside
`10 ^ -5` to `10 ^ 16`, and takes the neighbour with an even last digit.
-/

namespace Criteria.Decimal

/-- The digits of a natural number, and how many zeros were left off at their end. -/
def significant (n : Nat) : List Char × Nat :=
  let all := (Nat.toDigits 10 n).reverse
  let kept := all.dropWhile (· == '0')
  (kept.reverse, all.length - kept.length)

def sign (negative : Bool) : List Char :=
  if negative then ['-'] else []

/-- The digits `digits` times `10 ^ exponent` without an exponent; `whole` follows
an integral number. -/
def positional (digits : List Char) (exponent : Int) (whole : List Char) : List Char :=
  if 0 ≤ exponent then digits ++ List.replicate exponent.toNat '0' ++ whole
  else
    let places := (-exponent).toNat
    if places < digits.length then
      digits.take (digits.length - places) ++ '.' :: digits.drop (digits.length - places)
    else '0' :: '.' :: (List.replicate (places - digits.length) '0' ++ digits)

/-- One digit, the others after a point, and the power of ten of the first digit. -/
def withExponent (digits : List Char) (exponent : Int) : List Char :=
  let mantissa := match digits with
    | [] => ['0']
    | [d] => [d]
    | d :: ds => d :: '.' :: ds
  mantissa ++ 'e' :: (if exponent < 0 then '-' else '+') :: Nat.toDigits 10 exponent.natAbs

end Criteria.Decimal

namespace Criteria.Binary64

/-- The digits, and the power of ten of the last one, of a finite number that is not zero. -/
def shortestDigits (tie : Decimal.Tie) (x : Binary64) : List Char × Int :=
  let d := Decimal.shortest tie x
  let (digits, zeros) := Decimal.significant d.digits
  (digits, d.exponent + zeros)

/-- A number in plain text: no exponent, no point for an integral number. -/
def plainText (x : Binary64) : List Char :=
  if x.isNaN then ['N', 'a', 'N']
  else Decimal.sign x.negative ++
    (if x.isInfinite then ['i', 'n', 'f']
    else if x.isZero then ['0']
    else
      let (digits, exponent) := x.shortestDigits .up
      Decimal.positional digits exponent [])

/-- A finite number in source text: never the numeral of an integer. -/
def sourceText (x : Binary64) : List Char :=
  Decimal.sign x.negative ++
    (if x.isZero then ['0', '.', '0']
    else
      let (digits, exponent) := x.shortestDigits .toEven
      let leading := exponent + digits.length - 1
      if -5 ≤ leading ∧ leading ≤ 15 then Decimal.positional digits exponent ['.', '0']
      else Decimal.withExponent digits leading)

/-- The text of a number as a string operand: integers below `10 ^ 15` as such, in
particular zero without its sign, all others in plain text. -/
def scalarText (x : Binary64) : List Char :=
  if x.isIntegral && Binary64.units x.rank < 10 ^ (15 : Nat) * unitsPerOne then
    let n := x.truncate (-(10 ^ (15 : Nat))) (10 ^ (15 : Nat))
    Decimal.sign (n < 0) ++ Nat.toDigits 10 n.natAbs
  else x.plainText

end Criteria.Binary64
