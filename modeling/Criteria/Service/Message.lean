import Criteria.Text.Blank

/-!
# Requests and responses

What a client sends and what it gets back. The names of headers are equal in any letter
case, and of several headers with one name the first one counts. A header is readable if
it holds nothing but visible ASCII characters, spaces and tabs.
-/

namespace Criteria.Service

structure Request where
  method : String
  target : String
  headers : List (String × String)
  body : ByteArray

structure Response where
  status : Nat
  headers : List (String × String)
  body : String
  deriving DecidableEq, Repr

namespace Request

/-- The target without its query and fragment. -/
def path (r : Request) : String :=
  String.ofList (r.target.toList.takeWhile fun c => c != '?' && c != '#')

/-- The first header with a name in small letters. -/
def header? (r : Request) (name : String) : Option String :=
  (r.headers.find? fun h => Text.toAsciiLower h.1 == name).map (·.2)

/-- A space, a tab or a visible ASCII character. -/
def isReadableChar (c : Char) : Bool :=
  c == '\t' || (0x20 ≤ c.toNat && c.toNat < 0x7F)

/-- The first header with a name in small letters, if it is readable. -/
def readable? (r : Request) (name : String) : Option String :=
  (r.header? name).filter fun s => s.toList.all isReadableChar

/-- The identifier that the client gave to the request. -/
def id? (r : Request) : Option String :=
  (r.readable? "x-request-id").filter (· ≠ "")

/-- The key of the record that the client asks for, without blanks at its ends. -/
def contextKey? (r : Request) : Option String :=
  ((r.readable? "x-context-key").map fun s => String.ofList (Text.trim s.toList)).filter (· ≠ "")

end Request

end Criteria.Service
