import Criteria.Decimal.Numeral
import Criteria.Expr.Operator
import Criteria.Text.Numeric
import Criteria.Value.Text

/-!
# Lexemes

The words of the expression language. `Lexeme.read` finds the lexeme at the start of
a text and its extent in characters; the kinds are tried in a fixed order, and a word
is an operator only where no longer name starts at the same place.
-/

namespace Criteria

inductive Punctuation where
  | openParen
  | closeParen
  | openBracket
  | closeBracket
  | openBrace
  | closeBrace
  | comma
  | dot
  | question
  | colon
  deriving DecidableEq, Repr

namespace Punctuation

def char : Punctuation → Char
  | openParen => '('
  | closeParen => ')'
  | openBracket => '['
  | closeBracket => ']'
  | openBrace => '\x7b'
  | closeBrace => '\x7d'
  | comma => ','
  | dot => '.'
  | question => '?'
  | colon => ':'

def all : List Punctuation :=
  [openParen, closeParen, openBracket, closeBracket, openBrace, closeBrace, comma, dot, question,
  colon]

def ofChar? (c : Char) : Option Punctuation :=
  all.find? (·.char == c)

end Punctuation

inductive Lexeme where
  | number (n : Numeric)
  | string (s : String)
  | name (s : String)
  | operator (spelling : Spelling)
  | punctuation (p : Punctuation)
  deriving DecidableEq, Repr

namespace Lexeme

/-- How a message names a lexeme. -/
def description : Lexeme → String
  | number (.int n _) => "数字 " ++ intText n
  | number (.float x) => "数字 " ++ String.ofList x.plainText
  | string s => "字符串 \"" ++ s ++ "\""
  | name s => "名称 \"" ++ s ++ "\""
  | operator s => "操作符 \"" ++ s.text ++ "\""
  | punctuation p => "标点 \"" ++ p.char.toString ++ "\""

/-! ## Numerals -/

/-- The digits at the start of a text, with the underscores after the first one. -/
def digitRun : List Char → List Char
  | [] => []
  | c :: cs =>
    if Text.isAsciiDigit c then c :: cs.takeWhile (fun d => Text.isAsciiDigit d || d == '_') else []

/-- The digits of a run. -/
def runDigits (run : List Char) : List Char :=
  run.filter Text.isAsciiDigit

/-- A point and the run behind it, if the text starts with both. -/
def fractionRun? : List Char → Option (List Char)
  | '.' :: cs => if (digitRun cs).isEmpty then none else some (digitRun cs)
  | _ => none

/-- An exponent at the start of a text: whether it is negative, the extent of the letter
and the sign, and the run behind them. -/
def exponentRun? : List Char → Option (Bool × Nat × List Char)
  | [] => none
  | c :: cs =>
    if c == 'e' || c == 'E' then
      let (negative, signs) := match cs with
        | '-' :: _ => (true, 1)
        | '+' :: _ => (false, 1)
        | _ => (false, 0)
      let run := digitRun (cs.drop signs)
      if run.isEmpty then none else some (negative, 1 + signs, run)
    else none

/-- The numeral at the start of a text that starts with a digit, and its extent. -/
def readNumeral (cs : List Char) : Numeral × Nat :=
  let whole := digitRun cs
  let rest := cs.drop whole.length
  let fraction := fractionRun? rest
  let fractionExtent := match fraction with
    | some run => run.length + 1
    | none => 0
  match exponentRun? (rest.drop fractionExtent) with
  | some (negative, marks, run) =>
    let n : Int := Text.digitsValue (runDigits run)
    (⟨false, runDigits whole, fraction.map runDigits, some (if negative then -n else n)⟩,
      whole.length + fractionExtent + marks + run.length)
  | none => (⟨false, runDigits whole, fraction.map runDigits, none⟩, whole.length + fractionExtent)

/-! ## String literals -/

/-- The character that stands behind a backslash for another one. -/
def unescape : Char → Char
  | 'n' => '\n'
  | 't' => '\t'
  | 'r' => '\r'
  | '0' => '\x00'
  | c => c

/-- The rest of a string literal up to its closing quote: the string, and the extent. -/
def readString (quote : Char) : List Char → Option (List Char × Nat)
  | [] => none
  | [c] => if c = quote then some ([], 1) else none
  | c :: d :: cs =>
    if c = quote then some ([], 1)
    else if c = '\\' then (readString quote cs).map fun (s, n) => (unescape d :: s, n + 2)
    else (readString quote (d :: cs)).map fun (s, n) => (c :: s, n + 1)

/-! ## Operators and names -/

/-- The extent of the given words at the start of a text, with gaps between them and no
further name character behind the last one. -/
def wordsExtent? : List String → List Char → Option Nat
  | [], _ => none
  | [w], cs =>
    if w.toList.isPrefixOf cs && !(cs.drop w.length).head?.any Text.isNameChar then some w.length
    else none
  | w :: ws, cs =>
    let gap := (cs.drop w.length).takeWhile Text.isPlainBlank
    if w.toList.isPrefixOf cs && !gap.isEmpty then
      (wordsExtent? ws (cs.drop (w.length + gap.length))).map (w.length + gap.length + ·)
    else none

/-- The operator in words at the start of a text, and its extent. -/
def readWords? (cs : List Char) : Option (Spelling × Nat) :=
  Spelling.inWords.findSome? fun (s, ws) => (wordsExtent? ws cs).map (s, ·)

/-- The operator in signs at the start of a text, and its extent. -/
def readSigns? (cs : List Char) : Option (Spelling × Nat) :=
  Spelling.inSigns.findSome? fun s =>
    if s.text.toList.isPrefixOf cs then some (s, s.text.length) else none

/-- Why no lexeme stands at a place. -/
inductive Obstacle where
  | unclosedString
  | unknownChar (c : Char)
  deriving DecidableEq, Repr

/-- The lexeme at the start of `c :: cs`, and how many characters of `cs` belong to it. -/
def read (c : Char) (cs : List Char) : Except Obstacle (Lexeme × Nat) :=
  if c = '"' || c = '\'' then
    match readString c cs with
    | some (s, n) => .ok (string (String.ofList s), n)
    | none => .error .unclosedString
  else if Text.isAsciiDigit c then
    let (n, extent) := readNumeral (c :: cs)
    .ok (number n.toNumeric, extent - 1)
  else
    match readWords? (c :: cs) with
    | some (s, extent) => .ok (operator s, extent - 1)
    | none =>
      match readSigns? (c :: cs) with
      | some (s, extent) => .ok (operator s, extent - 1)
      | none =>
        match Punctuation.ofChar? c with
        | some p => .ok (punctuation p, 0)
        | none =>
          if Text.isNameStart c then
            let rest := cs.takeWhile Text.isNameChar
            .ok (name (String.ofList (c :: rest)), rest.length)
          else .error (.unknownChar c)

end Lexeme

end Criteria
