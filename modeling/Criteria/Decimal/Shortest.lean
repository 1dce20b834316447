import Criteria.Decimal.Basic

/-!
# Shortest decimal numbers

`shortest` gives the decimal number with the fewest digits that reads back as a
given finite number, of two such the nearer one. It tries one digit, two digits
and so on; on the grid of each length only the two neighbours of the value can
read back if any point does. Where both are equally near, a parameter decides.

Whatever is returned has been read back, except for the last resort, which is
the exact decimal expansion.
-/

namespace Criteria.Decimal

/-- Which of two equally near neighbours is taken. -/
inductive Tie where
  | up
  | toEven
  deriving DecidableEq, Repr

/-- The power of ten of the first digit of `u` units, for positive `u`. -/
def leadingExponent (u : Nat) : Int :=
  let guess := Int.fdiv (((u.log2 : Int) - 1074) * 30103) 100000
  if reaches (guess + 1) then guess + 1 else if reaches guess then guess else guess - 1
where
  /-- Whether `u` units are at least `10 ^ p`. -/
  reaches (p : Int) : Bool :=
    10 ^ p.toNat * Binary64.unitsPerOne ≤ u * 10 ^ (-p).toNat

/-- The decimal number on the grid `10 ^ p` that reads back as `x`, if a neighbour of
`x` on it does. -/
def onGrid? (tie : Tie) (x : Binary64) (p : Int) : Option Decimal :=
  let num := Binary64.units x.rank * 10 ^ (-p).toNat
  let den := Binary64.unitsPerOne * 10 ^ p.toNat
  let below : Decimal := ⟨x.negative, num / den, p⟩
  let above : Decimal := ⟨x.negative, num / den + 1, p⟩
  let rest := num % den
  match below.toBinary64 == x, above.toBinary64 == x with
  | true, true =>
    if 2 * rest < den then below
    else if den < 2 * rest then above
    else match tie with
      | .up => above
      | .toEven => if below.digits % 2 = 0 then below else above
  | true, false => below
  | false, true => above
  | false, false => none

/-- The exact value of a finite number. -/
def exact (x : Binary64) : Decimal :=
  ⟨x.negative, Binary64.units x.rank * 5 ^ (1074 : Nat), -1074⟩

/-- The decimal number with fewest digits that reads back as the finite number `x`. -/
def shortest (tie : Tie) (x : Binary64) : Decimal :=
  if x.isZero then ⟨x.negative, 0, 0⟩
  else
    let p := leadingExponent (Binary64.units x.rank)
    ((List.range 17).findSome? fun (n : Nat) => onGrid? tie x (p - n)).getD (exact x)

end Criteria.Decimal
