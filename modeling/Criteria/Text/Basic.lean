/-!
# Characters and texts

A table of a character property is a list of closed ranges of code points in
increasing order. Membership looks at every range; the tables are short and a
text asks about its ASCII characters without them. The tables of the library are
those of Unicode 16.

Beside the tables stand the ASCII digits and letters, and the search for one text
in another.
-/

namespace Criteria.Text

/-! ## Characters -/

/-- Whether some range of `ranges` holds the code point of `c`. -/
def within (ranges : List (Nat × Nat)) (c : Char) : Bool :=
  ranges.any fun r => r.1 ≤ c.toNat && c.toNat ≤ r.2

/-- The letters `a` to `z` and `A` to `Z`. -/
def isAsciiLetter (c : Char) : Bool :=
  ('a' ≤ c && c ≤ 'z') || ('A' ≤ c && c ≤ 'Z')

/-- The digits `0` to `9`. -/
def isAsciiDigit (c : Char) : Bool :=
  '0' ≤ c && c ≤ '9'

/-- The value of an ASCII digit. -/
def digitValue (c : Char) : Nat :=
  c.toNat - '0'.toNat

/-- The number written by a run of ASCII digits. -/
def digitsValue (cs : List Char) : Nat :=
  cs.foldl (fun n c => 10 * n + digitValue c) 0

/-- The value of a hexadecimal digit. -/
def hexValue? (c : Char) : Option Nat :=
  if isAsciiDigit c then some (digitValue c)
  else if 'a' ≤ c && c ≤ 'f' then some (c.toNat - 'a'.toNat + 10)
  else if 'A' ≤ c && c ≤ 'F' then some (c.toNat - 'A'.toNat + 10)
  else none

/-- The same text with the letters `A` to `Z` replaced by `a` to `z`. -/
def toAsciiLower (s : String) : String :=
  String.ofList (s.toList.map Char.toLower)

/-- The same text with the letters `a` to `z` replaced by `A` to `Z`. -/
def toAsciiUpper (s : String) : String :=
  String.ofList (s.toList.map Char.toUpper)

/-! ## Parts of a text -/

/-- Whether `part` occurs in a text. -/
def occursIn (part : List Char) : List Char → Bool
  | [] => part.isEmpty
  | c :: cs => part.isPrefixOf (c :: cs) || occursIn part cs

def contains (text part : String) : Bool := occursIn part.toList text.toList

def startsWith (text part : String) : Bool := part.toList.isPrefixOf text.toList

def endsWith (text part : String) : Bool := part.toList.isSuffixOf text.toList

end Criteria.Text
