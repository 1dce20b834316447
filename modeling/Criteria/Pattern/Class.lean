import Criteria.Text.Blank
import Criteria.Text.Case
import Criteria.Text.Word

/-!
# Classes of characters

The sets of characters that a pattern can name, as terms with a membership test.
-/

namespace Criteria

/-- The classes that are written `[:name:]` inside brackets. They hold ASCII only. -/
inductive AsciiClass where
  | alnum
  | alpha
  | ascii
  | blank
  | cntrl
  | digit
  | graph
  | lower
  | print
  | punct
  | space
  | upper
  | word
  | xdigit
  deriving DecidableEq, Repr

namespace AsciiClass

def name : AsciiClass → String
  | alnum => "alnum"
  | alpha => "alpha"
  | ascii => "ascii"
  | blank => "blank"
  | cntrl => "cntrl"
  | digit => "digit"
  | graph => "graph"
  | lower => "lower"
  | print => "print"
  | punct => "punct"
  | space => "space"
  | upper => "upper"
  | word => "word"
  | xdigit => "xdigit"

def all : List AsciiClass :=
  [alnum, alpha, ascii, blank, cntrl, digit, graph, lower, print, punct, space, upper, word, xdigit]

def ofName? (s : String) : Option AsciiClass :=
  all.find? (·.name == s)

def ranges : AsciiClass → List (Nat × Nat)
  | alnum => [(0x30, 0x39), (0x41, 0x5A), (0x61, 0x7A)]
  | alpha => [(0x41, 0x5A), (0x61, 0x7A)]
  | ascii => [(0x0, 0x7F)]
  | blank => [(0x9, 0x9), (0x20, 0x20)]
  | cntrl => [(0x0, 0x1F), (0x7F, 0x7F)]
  | digit => [(0x30, 0x39)]
  | graph => [(0x21, 0x7E)]
  | lower => [(0x61, 0x7A)]
  | print => [(0x20, 0x7E)]
  | punct => [(0x21, 0x2F), (0x3A, 0x40), (0x5B, 0x60), (0x7B, 0x7E)]
  | space => [(0x9, 0xD), (0x20, 0x20)]
  | upper => [(0x41, 0x5A)]
  | word => [(0x30, 0x39), (0x41, 0x5A), (0x5F, 0x5F), (0x61, 0x7A)]
  | xdigit => [(0x30, 0x39), (0x41, 0x46), (0x61, 0x66)]

end AsciiClass

/-- The ways to combine two classes into one. -/
inductive ClassOp where
  | union
  | intersection
  | difference
  | symmetricDifference
  deriving DecidableEq, Repr

namespace ClassOp

def holds : ClassOp → Bool → Bool → Bool
  | union, a, b => a || b
  | intersection, a, b => a && b
  | difference, a, b => a && !b
  | symmetricDifference, a, b => a != b

end ClassOp

inductive CharClass where
  | empty
  | range (low high : Char)
  | ascii (c : AsciiClass)
  | digit
  | blank
  | word
  | letter
  | complement (c : CharClass)
  | combined (op : ClassOp) (a b : CharClass)
  | folded (c : CharClass)
  deriving DecidableEq, Repr

namespace CharClass

def has : CharClass → Char → Bool
  | empty, _ => false
  | range low high, c => low ≤ c && c ≤ high
  | ascii a, c => Text.within a.ranges c
  | digit, c => Text.isDecimalDigit c
  | blank, c => Text.isBlank c
  | word, c => Text.isWordChar c
  | letter, c => Text.isAlphabetic c
  | complement a, c => !a.has c
  | combined op a b, c => op.holds (a.has c) (b.has c)
  | folded a, c => (Text.caseVariants c).any a.has

def single (c : Char) : CharClass := range c c

def any : CharClass := complement empty

end CharClass

end Criteria
