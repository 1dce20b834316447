import Criteria.Decimal.Numeral
import Criteria.Value.Text

/-!
# Truth, equality and order of values

Loose equality takes a text that is a numeral for its number and compares null and
truth values by what they count as; strict equality keeps integers, floating numbers
and strings apart. The order knows two cases only: both values have a number, or
both are strings.
-/

namespace Criteria.Value

/-- The number of a value that is a number or a numeral in text. -/
def numeric? : Value → Option Numeric
  | .number n => some n.toNumeric
  | .string s => Numeric.ofText? s
  | _ => none

/-- The number of a value as an operand of arithmetic, where null and the truth
values count too. -/
def operand? : Value → Option Numeric
  | .null => some .zero
  | .bool b => some (if b then .one else .zero)
  | v => v.numeric?

/-- Whether a value counts as true. -/
def truthy : Value → Bool
  | .null => false
  | .bool b => b
  | .number n => !n.isZero
  | .string s => !(s == "" || s == "0")
  | .array items => !items.isEmpty
  | .object entries => !entries.isEmpty

/-- Whether a value other than a truth value equals null. -/
def emptyLike : Value → Bool
  | .null => true
  | .bool b => !b
  | .number n => n.isZero
  | .string s => s == ""
  | .array items => items.isEmpty
  | .object entries => entries.isEmpty

def numericEq (a b : Numeric) : Bool :=
  a.compare? b == some .eq

/-- A number equals a text by value if the text is a numeral, else by its own text. -/
def numberEqString (n : Number) (s : String) : Bool :=
  match Numeric.ofText? s with
  | some m => numericEq n.toNumeric m
  | none => n.toNumeric.text == s

def stringEq (a b : String) : Bool :=
  match Numeric.ofText? a, Numeric.ofText? b with
  | some m, some n => numericEq m n
  | _, _ => a == b

mutual

/-- Equality as `==` takes it. -/
def looseEq : Value → Value → Bool
  | .bool b, v => b == v.truthy
  | v, .bool b => b == v.truthy
  | .null, v => v.emptyLike
  | v, .null => v.emptyLike
  | .number m, .number n => numericEq m.toNumeric n.toNumeric
  | .number n, .string s => numberEqString n s
  | .string s, .number n => numberEqString n s
  | .string s, .string t => stringEq s t
  | .array xs, .array ys => looseEqItems xs ys
  | .object xs, .object ys => xs.length == ys.length && looseEqEntries xs ys
  | _, _ => false

def looseEqItems : List Value → List Value → Bool
  | [], [] => true
  | x :: xs, y :: ys => looseEq x y && looseEqItems xs ys
  | _, _ => false

/-- Whether every entry on the left has an equal one of its key on the right. -/
def looseEqEntries : List (String × Value) → List (String × Value) → Bool
  | [], _ => true
  | (k, x) :: xs, ys =>
    (match ys.lookup k with
    | some y => looseEq x y
    | none => false) && looseEqEntries xs ys

end

def numberEq : Number → Number → Bool
  | .int m _ _, .int n _ _ => m == n
  | .float x _, .float y _ => x.compare? y == some .eq
  | _, _ => false

mutual

/-- Equality as `===` takes it. -/
def strictEq : Value → Value → Bool
  | .null, .null => true
  | .bool a, .bool b => a == b
  | .number m, .number n => numberEq m n
  | .string s, .string t => s == t
  | .array xs, .array ys => strictEqItems xs ys
  | .object xs, .object ys => xs.length == ys.length && strictEqEntries xs ys
  | _, _ => false

def strictEqItems : List Value → List Value → Bool
  | [], [] => true
  | x :: xs, y :: ys => strictEq x y && strictEqItems xs ys
  | _, _ => false

def strictEqEntries : List (String × Value) → List (String × Value) → Bool
  | [], _ => true
  | (k, x) :: xs, ys =>
    (match ys.lookup k with
    | some y => strictEq x y
    | none => false) && strictEqEntries xs ys

end

/-- The order of two values, where they have one. -/
def compare? (l r : Value) : Option Ordering :=
  match l.numeric?, r.numeric? with
  | some a, some b => a.compare? b
  | _, _ =>
    match l, r with
    | .string s, .string t => some (compare s t)
    | _, _ => none

end Criteria.Value
