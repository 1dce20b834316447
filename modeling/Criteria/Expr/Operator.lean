/-!
# Operators

An operator is one thing and its spelling another: `and` and `&&` are two spellings
of one operator, and `-` is the spelling of two. The order of the two lists of
spellings matters to the reader of lexemes, which takes the first that fits.
-/

namespace Criteria

/-- The ways in which operators are written. -/
inductive Spelling where
  | notInWords
  | startsWithWords
  | endsWithWords
  | containsWord
  | matchesWord
  | andWord
  | notWord
  | orWord
  | inWord
  | tripleEqual
  | bangDoubleEqual
  | doubleEqual
  | bangEqual
  | lessEqual
  | greaterEqual
  | doubleAmpersand
  | doubleBar
  | doubleStar
  | doubleDot
  | doubleQuestion
  | less
  | greater
  | plus
  | minus
  | tilde
  | star
  | slash
  | percent
  | bang
  | bar
  | caret
  | ampersand
  deriving DecidableEq, Repr

namespace Spelling

def text : Spelling → String
  | notInWords => "not in"
  | startsWithWords => "starts with"
  | endsWithWords => "ends with"
  | containsWord => "contains"
  | matchesWord => "matches"
  | andWord => "and"
  | notWord => "not"
  | orWord => "or"
  | inWord => "in"
  | tripleEqual => "==="
  | bangDoubleEqual => "!=="
  | doubleEqual => "=="
  | bangEqual => "!="
  | lessEqual => "<="
  | greaterEqual => ">="
  | doubleAmpersand => "&&"
  | doubleBar => "||"
  | doubleStar => "**"
  | doubleDot => ".."
  | doubleQuestion => "??"
  | less => "<"
  | greater => ">"
  | plus => "+"
  | minus => "-"
  | tilde => "~"
  | star => "*"
  | slash => "/"
  | percent => "%"
  | bang => "!"
  | bar => "|"
  | caret => "^"
  | ampersand => "&"

/-- The spellings in words, each with its words. Pairs of words come before the words
that they start with. -/
def inWords : List (Spelling × List String) :=
  [(notInWords, ["not", "in"]), (startsWithWords, ["starts", "with"]),
  (endsWithWords, ["ends", "with"]), (containsWord, ["contains"]), (matchesWord, ["matches"]),
  (andWord, ["and"]), (notWord, ["not"]), (orWord, ["or"]), (inWord, ["in"])]

/-- The spellings in signs, the longer ones first. -/
def inSigns : List Spelling :=
  [tripleEqual, bangDoubleEqual, doubleEqual, bangEqual, lessEqual, greaterEqual, doubleAmpersand,
  doubleBar, doubleStar, doubleDot, doubleQuestion, less, greater, plus, minus, tilde, star, slash,
  percent, bang, bar, caret, ampersand]

/-- The spelling with a given text. -/
def ofText? (s : String) : Option Spelling :=
  (inWords.map Prod.fst ++ inSigns).find? (·.text == s)

end Spelling

inductive UnaryOp where
  | not
  | negate
  | plus
  deriving DecidableEq, Repr

namespace UnaryOp

def ofSpelling? : Spelling → Option UnaryOp
  | .bang | .notWord => some not
  | .minus => some negate
  | .plus => some plus
  | _ => none

/-- The spelling used for writing. -/
def spelling : UnaryOp → Spelling
  | not => .bang
  | negate => .minus
  | plus => .plus

def symbol (op : UnaryOp) : String := op.spelling.text

/-- How tightly the operator binds its operand. -/
def precedence : UnaryOp → Nat
  | not => 50
  | negate | plus => 500

def ofSymbol? (s : String) : Option UnaryOp :=
  (Spelling.ofText? s).bind ofSpelling?

end UnaryOp

inductive BinaryOp where
  | or
  | and
  | bitOr
  | bitXor
  | bitAnd
  | equal
  | identical
  | notEqual
  | notIdentical
  | less
  | greater
  | lessOrEqual
  | greaterOrEqual
  | member
  | notMember
  | fitsPattern
  | contains
  | startsWith
  | endsWith
  | range
  | add
  | subtract
  | concat
  | multiply
  | divide
  | modulo
  | power
  | coalesce
  deriving DecidableEq, Repr

namespace BinaryOp

def ofSpelling? : Spelling → Option BinaryOp
  | .orWord | .doubleBar => some or
  | .andWord | .doubleAmpersand => some and
  | .bar => some bitOr
  | .caret => some bitXor
  | .ampersand => some bitAnd
  | .doubleEqual => some equal
  | .tripleEqual => some identical
  | .bangEqual => some notEqual
  | .bangDoubleEqual => some notIdentical
  | .less => some less
  | .greater => some greater
  | .lessEqual => some lessOrEqual
  | .greaterEqual => some greaterOrEqual
  | .inWord => some member
  | .notInWords => some notMember
  | .matchesWord => some fitsPattern
  | .containsWord => some contains
  | .startsWithWords => some startsWith
  | .endsWithWords => some endsWith
  | .doubleDot => some range
  | .plus => some add
  | .minus => some subtract
  | .tilde => some concat
  | .star => some multiply
  | .slash => some divide
  | .percent => some modulo
  | .doubleStar => some power
  | .doubleQuestion => some coalesce
  | .notWord | .bang => none

/-- The spelling used for writing. -/
def spelling : BinaryOp → Spelling
  | or => .doubleBar
  | and => .doubleAmpersand
  | bitOr => .bar
  | bitXor => .caret
  | bitAnd => .ampersand
  | equal => .doubleEqual
  | identical => .tripleEqual
  | notEqual => .bangEqual
  | notIdentical => .bangDoubleEqual
  | less => .less
  | greater => .greater
  | lessOrEqual => .lessEqual
  | greaterOrEqual => .greaterEqual
  | member => .inWord
  | notMember => .notInWords
  | fitsPattern => .matchesWord
  | contains => .containsWord
  | startsWith => .startsWithWords
  | endsWith => .endsWithWords
  | range => .doubleDot
  | add => .plus
  | subtract => .minus
  | concat => .tilde
  | multiply => .star
  | divide => .slash
  | modulo => .percent
  | power => .doubleStar
  | coalesce => .doubleQuestion

def symbol (op : BinaryOp) : String := op.spelling.text

/-- How tightly the operator binds its operands. -/
def precedence : BinaryOp → Nat
  | or => 10
  | and => 15
  | bitOr => 16
  | bitXor => 17
  | bitAnd => 18
  | equal | identical | notEqual | notIdentical | less | greater | lessOrEqual | greaterOrEqual
  | member | notMember | fitsPattern | contains | startsWith | endsWith => 20
  | range => 25
  | add | subtract => 30
  | concat => 40
  | multiply | divide | modulo => 60
  | power => 200
  | coalesce => 500

def isRightAssociative (op : BinaryOp) : Bool := op == power

/-- Whether the operator joins conditions into one chain. -/
def isLogical (op : BinaryOp) : Bool := op == and || op == or

/-- The least precedence of an operator in the right operand. -/
def rightPrecedence (op : BinaryOp) : Nat :=
  if op.isRightAssociative then op.precedence else op.precedence + 1

def ofSymbol? (s : String) : Option BinaryOp :=
  (Spelling.ofText? s).bind ofSpelling?

theorem ofSpelling?_spelling (op : BinaryOp) : ofSpelling? op.spelling = some op := by
  cases op <;> rfl

end BinaryOp

theorem UnaryOp.ofSpelling?_spelling (op : UnaryOp) : ofSpelling? op.spelling = some op := by
  cases op <;> rfl

end Criteria
