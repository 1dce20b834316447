import Criteria.Pattern.Reading

/-!
# Patterns between delimiters

A pattern may be written between two equal delimiters with flags behind them, as in
`/ab+/i`. The closing delimiter is the last one of its kind; a text with other letters
behind it is a pattern as it stands.
-/

namespace Criteria.Pattern

def isDelimiter (c : Char) : Bool :=
  c == '/' || c == '#' || c == '~'

def isDelimitedFlag (c : Char) : Bool :=
  c == 'i' || c == 'm' || c == 's' || c == 'x' || c == 'u' || c == 'U'

/-- The text before the last `d`, and the text behind it. -/
def splitLast? (d : Char) : List Char → Option (List Char × List Char)
  | [] => none
  | c :: cs =>
    match splitLast? d cs with
    | some (body, flags) => some (c :: body, flags)
    | none => if c = d then some ([], cs) else none

/-- The pattern text without delimiters, with the flags written in front of it. The flag
`u` says what is the rule anyway. -/
def undelimited (cs : List Char) : List Char :=
  match cs with
  | [] => []
  | d :: rest =>
    if !isDelimiter d then cs
    else
      match splitLast? d rest with
      | none => cs
      | some (body, flags) =>
        if !flags.all isDelimitedFlag then cs
        else
          let flags := flags.filter (· != 'u')
          if flags.isEmpty then body else '(' :: '?' :: (flags ++ ')' :: body)

/-- Whether the text `text` has an occurrence of the pattern that `source` denotes, if it
denotes one. -/
def search? (source text : String) : Option Bool :=
  (ofText? (undelimited source.toList)).map (·.occursIn text.toList)

/-- What is said of a text that denotes no pattern. The faults are not told apart. -/
def refusal : String := "<regex>"

end Criteria.Pattern
