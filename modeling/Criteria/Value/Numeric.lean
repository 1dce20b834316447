import Criteria.Binary64.Arithmetic
import Criteria.Value.Basic

/-!
# Numbers to calculate with

Arithmetic knows integers of 64 signed bits and floating numbers. An integer result
that does not fit becomes the nearest floating number, and an integer of the data
format above the signed range takes part as a floating number. A floating number
without a finite value has no place among values and turns into null.
-/

namespace Criteria

/-- The integers of 64 bits with a sign. -/
def Fits (n : Int) : Prop := -2 ^ (63 : Nat) ≤ n ∧ n < 2 ^ (63 : Nat)

instance (n : Int) : Decidable (Fits n) := inferInstanceAs (Decidable (_ ∧ _))

inductive Numeric where
  | int (n : Int) (fits : Fits n)
  | float (x : Binary64)
  deriving DecidableEq, Repr

namespace Numeric

/-- The integer `n` where it fits, else `x`. -/
def ofInt (n : Int) (x : Binary64) : Numeric :=
  if h : Fits n then .int n h else .float x

def zero : Numeric := .int 0 (by decide)

def one : Numeric := .int 1 (by decide)

def toBinary64 : Numeric → Binary64
  | .int n _ => .ofInt n
  | .float x => x

/-- Two integers compare exactly, any other two numbers as floating numbers. -/
def compare? : Numeric → Numeric → Option Ordering
  | .int a _, .int b _ => some (compare a b)
  | a, b => a.toBinary64.compare? b.toBinary64

/-- The integer, or the integer part of a floating number kept in the range. -/
def toInt : Numeric → Int
  | .int n _ => n
  | .float x => x.truncate (-2 ^ (63 : Nat)) (2 ^ (63 : Nat) - 1)

def toValue : Numeric → Value
  | .int n _ => .ofInt n
  | .float x => .ofFloat x

end Numeric

namespace Number

def toNumeric : Number → Numeric
  | .int n _ _ => .ofInt n (.ofInt n)
  | .float x _ => .float x

def isZero : Number → Bool
  | .int n _ _ => n == 0
  | .float x _ => x.isZero

end Number

end Criteria
