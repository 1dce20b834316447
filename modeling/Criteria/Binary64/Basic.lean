/-!
# Binary floating-point numbers of 64 bits

A number is a sign and a rank. Ranks count the magnitudes from zero upwards in
the order of their values: `units k` is the magnitude of rank `k` as a multiple
of the least positive one, `2 ^ -1074`. One rank stands for infinity and the
ranks above it are no numbers. All rounding goes through `nearestRank`, which
takes an exact quotient to the nearest magnitude and a half to the even rank.

The type is arithmetic on `Nat`, so that every statement about it can be proved;
nothing here is claimed about the processor's own numbers.
-/

namespace Criteria

-- Powers are those of the numbers themselves, also where monoids have some. An exponent
-- has its type written out, since one without is taken for an exponent in a monoid.
attribute [scoped instance (2000)] instPowNat

structure Binary64 where
  negative : Bool
  rank : Nat
  rank_lt : rank < 2 ^ (63 : Nat)
  deriving DecidableEq, Repr

namespace Binary64

def infinityRank : Nat := 2047 * 2 ^ (52 : Nat)

/-- The magnitude of rank `k` as a multiple of `2 ^ -1074`. -/
def units (k : Nat) : Nat :=
  if k < 2 ^ (52 : Nat) then k
  else (2 ^ (52 : Nat) + k % 2 ^ (52 : Nat)) * 2 ^ (k / 2 ^ (52 : Nat) - 1)

/-- The multiples of `2 ^ -1074` in one. -/
def unitsPerOne : Nat := 2 ^ (1074 : Nat)

def isFinite (x : Binary64) : Bool :=
  x.rank < infinityRank

def isInfinite (x : Binary64) : Bool :=
  x.rank == infinityRank

def isNaN (x : Binary64) : Bool :=
  infinityRank < x.rank

def isZero (x : Binary64) : Bool :=
  x.rank == 0

def zero (negative : Bool) : Binary64 := ⟨negative, 0, by decide⟩

def infinity (negative : Bool) : Binary64 := ⟨negative, infinityRank, by decide⟩

/-- The number that is no number, in its usual form. -/
def nan : Binary64 := ⟨false, infinityRank + 2 ^ (51 : Nat), by decide⟩

/-- The quotient of `num` by `den` to the nearest integer, a half to the even one. -/
def roundHalfEven (num den : Nat) : Nat :=
  let q := num / den
  let r := num % den
  if 2 * r < den then q else if den < 2 * r then q + 1 else q + q % 2

/-- The rank nearest to `num / den` units; beyond the finite ones, infinity. -/
def nearestRank (num den : Nat) : Nat :=
  let shift := (num / den).log2 - 52
  min (shift * 2 ^ (52 : Nat) + roundHalfEven num (den * 2 ^ shift)) infinityRank

/-- The number nearest to `num / den` units. -/
def ofUnits (negative : Bool) (num den : Nat) : Binary64 where
  negative := negative
  rank := nearestRank num den
  rank_lt := Nat.lt_of_le_of_lt (Nat.min_le_right _ _) (by decide)

/-- The number nearest to `num / den`. -/
def ofRatio (negative : Bool) (num den : Nat) : Binary64 :=
  ofUnits negative (num * unitsPerOne) den

/-- The number nearest to an integer. -/
def ofInt (n : Int) : Binary64 :=
  ofRatio (n < 0) n.natAbs 1

/-- The number with a given sign bit and 63 further bits. -/
def ofBits (bits : Nat) : Binary64 where
  negative := bits / 2 ^ (63 : Nat) % 2 == 1
  rank := bits % 2 ^ (63 : Nat)
  rank_lt := Nat.mod_lt _ (by decide)

def toBits (x : Binary64) : Nat :=
  (if x.negative then 2 ^ (63 : Nat) else 0) + x.rank

/-- The value of a finite number as a multiple of `2 ^ -1074`. -/
def signedUnits (x : Binary64) : Int :=
  if x.negative then -(units x.rank : Int) else units x.rank

/-- The rank with its sign. The two zeros have one key, and the order of keys is
the order of values. -/
def key (x : Binary64) : Int :=
  if x.negative then -(x.rank : Int) else x.rank

/-- The order of values; nothing is ordered with a NaN. -/
def compare? (x y : Binary64) : Option Ordering :=
  if x.isNaN || y.isNaN then none else some (compare x.key y.key)

/-- Whether a finite number is an integer. -/
def isIntegral (x : Binary64) : Bool :=
  x.isFinite && units x.rank % unitsPerOne == 0

end Binary64

end Criteria
