import Criteria.Pattern.Class

/-!
# Patterns

A pattern is searched for in a text, and only whether it occurs is asked. `ends` lists
the places at which an occurrence that starts at a given place can end; repetition
collects places until no new ones come up, which happens after at most as many rounds
as there are places left.
-/

namespace Criteria

/-- What a pattern can ask of a place between two characters. -/
inductive Condition where
  | textStart
  | textEnd
  | lineStart
  | lineEnd
  | lineStartOrReturn
  | lineEndOrReturn
  | wordBoundary
  | insideWord
  | wordStart
  | wordEnd
  | beforeWord
  | behindWord
  deriving DecidableEq, Repr

inductive Pattern where
  | empty
  | one (c : CharClass)
  | condition (k : Condition) (letters : CharClass)
  | both (first second : Pattern)
  | either (first second : Pattern)
  | repeated (p : Pattern) (least : Nat) (most : Option Nat)
  deriving DecidableEq, Repr

namespace Pattern

/-- A place in a text: the character before it and the text behind it. -/
structure Place where
  before : Option Char
  rest : List Char
  deriving DecidableEq, Repr

namespace Place

/-- Whether the place satisfies a condition, with the characters of words given. -/
def satisfies (place : Place) (letters : CharClass) : Condition → Bool
  | .textStart => place.before.isNone
  | .textEnd => place.rest.isEmpty
  | .lineStart => place.before.isNone || place.before == some '\n'
  | .lineEnd => place.rest.isEmpty || place.rest.head? == some '\n'
  | .lineStartOrReturn =>
    place.before.isNone || place.before == some '\n' ||
      (place.before == some '\r' && place.rest.head? != some '\n')
  | .lineEndOrReturn =>
    place.rest.isEmpty || place.rest.head? == some '\r' ||
      (place.rest.head? == some '\n' && place.before != some '\r')
  | .wordBoundary => before != behind
  | .insideWord => before == behind
  | .wordStart => !before && behind
  | .wordEnd => before && !behind
  | .beforeWord => !before
  | .behindWord => !behind
where
  before : Bool := place.before.any letters.has
  behind : Bool := place.rest.head?.any letters.has

/-- The places of a list without those that stand for the same rest of the text. -/
def distinct (places : List Place) : List Place :=
  places.foldl
    (fun kept p => if kept.any (·.rest.length == p.rest.length) then kept else kept ++ [p]) []

end Place

/-- The places reached by one more round of `next` at a time, `rounds` times at most. -/
def closure (next : Place → List Place) : Nat → List Place → List Place → List Place
  | 0, known, _ => known
  | rounds + 1, known, fresh =>
    let found := (Place.distinct (fresh.flatMap next)).filter
      fun p => !known.any (·.rest.length == p.rest.length)
    if found.isEmpty then known else closure next rounds (known ++ found) found

/-- The places reached by exactly `n` rounds of `next`. -/
def exactly (next : Place → List Place) : Nat → List Place → List Place
  | 0, places => places
  | n + 1, places => exactly next n (Place.distinct (places.flatMap next))

/-- The places at which an occurrence of a pattern ends that starts at a given place. -/
def ends : Pattern → Place → List Place
  | empty, p => [p]
  | one c, p =>
    match p.rest with
    | [] => []
    | d :: rest => if c.has d then [⟨some d, rest⟩] else []
  | condition k letters, p => if p.satisfies letters k then [p] else []
  | both a b, p => Place.distinct ((a.ends p).flatMap b.ends)
  | either a b, p => Place.distinct (a.ends p ++ b.ends p)
  | repeated a least most, p =>
    let start := exactly a.ends least [p]
    let rounds := match most with
      | some n => n - least
      | none => p.rest.length + 1
    closure a.ends rounds start start

/-- Whether a pattern occurs at a place or behind it. -/
def occursFrom (pattern : Pattern) (before : Option Char) : List Char → Bool
  | [] => !(pattern.ends ⟨before, []⟩).isEmpty
  | c :: cs => !(pattern.ends ⟨before, c :: cs⟩).isEmpty || occursFrom pattern (some c) cs

/-- Whether a pattern occurs in a text. -/
def occursIn (pattern : Pattern) (text : List Char) : Bool :=
  occursFrom pattern none text

end Pattern

end Criteria
