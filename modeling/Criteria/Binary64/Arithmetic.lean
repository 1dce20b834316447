import Criteria.Binary64.Basic

/-!
# Arithmetic on binary floating-point numbers

A sum, product or quotient is the number nearest to the exact one. Infinities
and the cases without a value follow the usual rules, and the sign of a zero
result is the one that the operands prescribe.

Powers are the exception: they are taken by the processor's mathematical
library, whose last bit no exact rule gives.
-/

namespace Criteria.Binary64

def neg (x : Binary64) : Binary64 := { x with negative := !x.negative }

def add (x y : Binary64) : Binary64 :=
  if x.isNaN || y.isNaN then nan
  else if x.isInfinite then
    if y.isInfinite && x.negative != y.negative then nan else x
  else if y.isInfinite then y
  else
    let sum := x.signedUnits + y.signedUnits
    if sum = 0 then zero (x.negative && y.negative) else ofUnits (sum < 0) sum.natAbs 1

def sub (x y : Binary64) : Binary64 := add x y.neg

def mul (x y : Binary64) : Binary64 :=
  let negative := x.negative != y.negative
  if x.isNaN || y.isNaN then nan
  else if x.isInfinite then if y.isZero then nan else infinity negative
  else if y.isInfinite then if x.isZero then nan else infinity negative
  else ofUnits negative (units x.rank * units y.rank) unitsPerOne

def div (x y : Binary64) : Binary64 :=
  let negative := x.negative != y.negative
  if x.isNaN || y.isNaN then nan
  else if x.isInfinite then if y.isInfinite then nan else infinity negative
  else if y.isInfinite then zero negative
  else if y.isZero then if x.isZero then nan else infinity negative
  else ofUnits negative (units x.rank * unitsPerOne) (units y.rank)

/-- The processor's number with the same bits. -/
def toFloat (x : Binary64) : Float := Float.ofBits (UInt64.ofNat x.toBits)

def pow (x y : Binary64) : Binary64 :=
  ofBits (x.toFloat.pow y.toFloat).toBits.toNat

/-- The integer part, taken toward zero and kept between `low` and `high`; zero for a NaN. -/
def truncate (low high : Int) (x : Binary64) : Int :=
  if x.isNaN then 0
  else
    let whole : Int := units x.rank / unitsPerOne
    max low (min high (if x.negative then -whole else whole))

end Criteria.Binary64
