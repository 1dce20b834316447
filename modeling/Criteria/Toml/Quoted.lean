import Criteria.Text.Basic
import Criteria.Text.Taken

/-!
# Strings between quotes

A string stands between two quotes on one line, or between two runs of three quotes on
several. Between double quotes a backslash escapes; between single quotes every
character stands for itself. Lines end in a line feed.
-/

namespace Criteria.Toml

open Text (Taken)

/-- The characters of a line that may be written as they are. -/
def isLineChar (c : Char) : Bool :=
  c == '\t' || (0x20 ≤ c.toNat && c.toNat != 0x7F)

def isSpace (c : Char) : Bool := c == ' ' || c == '\t'

/-- The text behind the spaces and tabs at its front. -/
def skipSpaces (cs : List Char) : List Char :=
  cs.dropWhile isSpace

theorem length_skipSpaces (cs : List Char) : (skipSpaces cs).length ≤ cs.length :=
  (List.dropWhile_sublist _).length_le

theorem length_of_skipSpaces {cs rest : List Char} {c : Char} (h : skipSpaces cs = c :: rest) :
    rest.length < cs.length := by
  have := length_skipSpaces cs
  rw [h] at this
  exact this

/-- The character with the code that `n` hexadecimal digits give. -/
def coded? (n : Nat) (cs : List Char) : Option Char := do
  let digits := cs.take n
  let values ← digits.mapM Text.hexValue?
  let code := values.foldl (fun (c d : Nat) => 16 * c + d) 0
  if digits.length = n ∧ code.isValidChar then return Char.ofNat code else none

/-- The character that an escape stands for, and the extent of the escape behind its
first letter. -/
def escaped? (letter : Char) (cs : List Char) : Option (Char × Nat) :=
  match letter with
  | 'b' => some ('\x08', 0)
  | 't' => some ('\t', 0)
  | 'n' => some ('\n', 0)
  | 'f' => some ('\x0C', 0)
  | 'r' => some ('\r', 0)
  | '"' => some ('"', 0)
  | '\\' => some ('\\', 0)
  | 'u' => (coded? 4 cs).map (·, 4)
  | 'U' => (coded? 8 cs).map (·, 8)
  | _ => none

/-- The rest of a string of one line behind its opening quote. -/
def lineString (quote : Char) (escapes : Bool) (cs : List Char) :
    Option (Taken (List Char) cs.length) :=
  match cs with
  | [] => none
  | c :: rest =>
    if c = quote then some (.here [] rest)
    else if escapes && c = '\\' then
      match rest with
      | [] => none
      | letter :: rest => do
        let (c, n) ← escaped? letter rest
        let t ← lineString quote escapes (rest.drop n)
        return (t.map (c :: ·)).widen (Text.length_drop_le n rest)
    else if isLineChar c then do
      let t ← lineString quote escapes rest
      return (t.map (c :: ·)).behind
    else none
termination_by cs.length
decreasing_by
  · exact Text.length_drop_lt _ _
  · exact Nat.lt_succ_self _

/-- The text behind an escaped end of line and all blank space after it, if the text
goes on with an end of line. -/
def joinedLine? (cs : List Char) : Option (List Char) :=
  match skipSpaces cs with
  | '\n' :: rest => some (rest.dropWhile fun c => isSpace c || c == '\n')
  | _ => none

theorem length_joinedLine? {cs rest : List Char} (h : joinedLine? cs = some rest) :
    rest.length < cs.length := by
  unfold joinedLine? at h
  split at h
  · rename_i rest' hs
    cases h
    exact Nat.lt_of_le_of_lt (List.dropWhile_sublist _).length_le (length_of_skipSpaces hs)
  · cases h

/-- The rest of a string of several lines behind its opening quotes. Up to two quotes
may stand before the closing ones. -/
def blockString (quote : Char) (escapes : Bool) (cs : List Char) :
    Option (Taken (List Char) cs.length) :=
  match cs with
  | [] => none
  | c :: rest =>
    if c = quote && rest.take 2 == [quote, quote] then
      let inner := ((rest.drop 2).takeWhile (· == quote)).take 2
      some ⟨inner, (rest.drop 2).drop inner.length, Text.length_drop_drop_lt 2 _ rest⟩
    else if escapes && c = '\\' then
      match h : joinedLine? rest with
      | some rest' => do
        have := length_joinedLine? h
        let t ← blockString quote escapes rest'
        return t.widen (Nat.le_succ_of_le (Nat.le_of_lt this))
      | none =>
        match rest with
        | [] => none
        | letter :: rest => do
          let (c, n) ← escaped? letter rest
          let t ← blockString quote escapes (rest.drop n)
          return (t.map (c :: ·)).widen (Text.length_drop_le n rest)
    else if c == '\n' || isLineChar c then do
      let t ← blockString quote escapes rest
      return (t.map (c :: ·)).behind
    else none
termination_by cs.length
decreasing_by
  · exact Nat.lt_succ_of_lt this
  · exact Text.length_drop_lt _ _
  · exact Nat.lt_succ_self _

/-- The rest of a string behind its first quote. -/
def quoted (quote : Char) (escapes : Bool) (cs : List Char) :
    Option (Taken (List Char) cs.length) :=
  if cs.take 2 == [quote, quote] then
    match h : cs.drop 2 with
    | '\n' :: rest => do
      let t ← blockString quote escapes rest
      return t.widen (by
        have := congrArg List.length h
        simp at this
        omega)
    | rest => do
      let t ← blockString quote escapes rest
      return t.widen (by
        have := congrArg List.length h
        simp at this
        omega)
  else lineString quote escapes cs

end Criteria.Toml
