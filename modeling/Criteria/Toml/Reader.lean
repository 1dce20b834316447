import Criteria.Toml.Quoted
import Criteria.Toml.Scalar
import Criteria.Toml.Tree

/-!
# Reading TOML

The settings in a TOML text: lines that give a value to a key, open a table or open an
element of an array of tables. Arrays may go over several lines, inline tables may not.
A text with any fault has no settings at all.
-/

namespace Criteria.Toml

open Text (Taken)

/-- The text behind the spaces, tabs and comment at its front. -/
def skipComment (cs : List Char) : List Char :=
  match skipSpaces cs with
  | '#' :: rest => rest.dropWhile isLineChar
  | rest => rest

theorem length_skipComment (cs : List Char) : (skipComment cs).length ≤ cs.length := by
  unfold skipComment
  split
  · rename_i rest h
    exact Nat.le_trans (List.dropWhile_sublist _).length_le
      (Nat.le_of_lt (length_of_skipSpaces h))
  · exact length_skipSpaces cs

theorem length_of_skipComment {cs rest : List Char} {c : Char} (h : skipComment cs = c :: rest) :
    rest.length < cs.length := by
  have := length_skipComment cs
  rw [h] at this
  exact this

/-- Goes to the next character that is neither blank nor in a comment, over the ends of
lines. -/
def gap (cs : List Char) : Taken Unit (cs.length + 1) :=
  match h : skipComment cs with
  | '\n' :: rest =>
    have := length_of_skipComment h
    (gap rest).widen (Nat.succ_le_succ (Nat.le_of_lt this))
  | rest => ⟨(), rest, by rw [← h]; exact Nat.lt_succ_of_le (length_skipComment cs)⟩
termination_by cs.length

/-! ## Keys -/

/-- A key between quotes or without. -/
def key (cs : List Char) : Option (Taken String cs.length) :=
  match cs with
  | [] => none
  | c :: rest =>
    if c = '"' then do
      let t ← lineString '"' true rest
      return (t.map String.ofList).behind
    else if c = '\x27' then do
      let t ← lineString '\x27' false rest
      return (t.map String.ofList).behind
    else if Setting.isKeyChar c then
      some ((Taken.run Setting.isKeyChar rest).map fun cs => String.ofList (c :: cs))
    else none

/-- Keys between points, each perhaps with space around it. -/
def keyPath (cs : List Char) : Option (Taken KeyPath cs.length) := do
  have h₀ := length_skipSpaces cs
  let ⟨k, rest, h₁⟩ ← key (skipSpaces cs)
  match h : skipSpaces rest with
  | '.' :: rest' =>
    have := length_of_skipSpaces h
    let t ← keyPath rest'
    return (t.map fun p => ⟨k :: p.parents, p.key⟩).widen (by omega)
  | rest' =>
    have := length_skipSpaces rest
    return ⟨⟨[], k⟩, rest', by rw [← h]; omega⟩
termination_by cs.length

/-! ## Values -/

/-- A scalar without quotes. A date and a time may stand apart by one space. -/
def word (cs : List Char) : Option (Taken Setting cs.length) :=
  let first := cs.takeWhile isWordChar
  let rest := cs.dropWhile isWordChar
  let run := match rest with
    | ' ' :: c :: more =>
      if isDate first && Text.isAsciiDigit c then first ++ ' ' :: (c :: more).takeWhile isWordChar
      else first
    | _ => first
  if h : run.length = 0 ∨ cs.length < run.length then none
  else (scalar? run).map fun s => ⟨s, cs.drop run.length, by simp; omega⟩

mutual

/-- The value at the front of a text. -/
def value (cs : List Char) : Option (Taken Setting cs.length) :=
  match cs with
  | [] => none
  | c :: rest =>
    if c = '"' then do
      let t ← quoted '"' true rest
      return (t.map fun s => .text (String.ofList s)).behind
    else if c = '\x27' then do
      let t ← quoted '\x27' false rest
      return (t.map fun s => .text (String.ofList s)).behind
    else if c = '[' then do
      let t ← items rest
      return (t.map .list).widen (Nat.le_refl _)
    else if c = '\x7b' then do
      let t ← inlineMembers true [] rest
      return (t.map fun members => .table (settingsOf members)).widen (Nat.le_refl _)
    else word (c :: rest)
termination_by 2 * cs.length

/-- The items of an array up to its closing bracket. A comma may stand behind the last. -/
def items (cs : List Char) : Option (Taken (List Setting) (cs.length + 1)) :=
  let ⟨_, start, h₁⟩ := gap cs
  if start.head? = some ']' then some ⟨[], start.tail, by simp; omega⟩
  else do
    let ⟨s, rest, h₂⟩ ← value start
    let ⟨_, rest₁, h₃⟩ := gap rest
    let ⟨mark, rest₂, h₄⟩ ← Taken.character rest₁
    if mark = ',' then
      let t ← items rest₂
      return (t.map (s :: ·)).widen (by omega)
    else if mark = ']' then return ⟨[s], rest₂, by omega⟩
    else none
termination_by 2 * cs.length + 1

/-- The members of an inline table up to its closing brace, put into `done`. -/
def inlineMembers (first : Bool) (done : Members) (cs : List Char) :
    Option (Taken Members (cs.length + 1)) :=
  if first && (skipSpaces cs).head? = some '\x7d' then
    have := length_skipSpaces cs
    some ⟨done, (skipSpaces cs).tail, by simp; omega⟩
  else do
    let ⟨path, rest, h₁⟩ ← keyPath cs
    have := length_skipSpaces rest
    let ⟨equals, rest₁, h₂⟩ ← Taken.character (skipSpaces rest)
    if equals = '=' then
      have := length_skipSpaces rest₁
      let ⟨s, rest₂, h₃⟩ ← value (skipSpaces rest₁)
      let done ← Members.assign path s done
      have := length_skipSpaces rest₂
      let ⟨mark, rest₃, h₄⟩ ← Taken.character (skipSpaces rest₂)
      if mark = ',' then
        let t ← inlineMembers false done rest₃
        return t.widen (by omega)
      else if mark = '\x7d' then return ⟨done, rest₃, by omega⟩
      else none
    else none
termination_by 2 * cs.length + 1

end

/-! ## Lines -/

/-- The text behind an expected one. -/
def expect? (expected : List Char) (cs : List Char) : Option (List Char) :=
  if cs.take expected.length == expected then some (cs.drop expected.length) else none

theorem length_expect? {expected cs rest : List Char} (h : expect? expected cs = some rest) :
    rest.length ≤ cs.length := by
  unfold expect? at h
  split at h
  · cases h; simp
  · cases h

/-- A header with the given brackets around the path. -/
def header (opening closing : List Char) (f : KeyPath → Statement) (cs : List Char) :
    Option (Taken Statement (cs.length + 1)) :=
  match h₁ : expect? opening cs with
  | none => none
  | some rest => do
    let ⟨path, rest', h₂⟩ ← keyPath rest
    match h₃ : expect? closing rest' with
    | none => none
    | some rest'' => return ⟨f path, rest'', by
        have := length_expect? h₁
        have := length_expect? h₃
        omega⟩

/-- A key with its value. -/
def assignment (cs : List Char) : Option (Taken Statement (cs.length + 1)) := do
  let ⟨path, rest, h₁⟩ ← keyPath cs
  match h₂ : skipSpaces rest with
  | '=' :: rest' =>
    have := length_of_skipSpaces h₂
    have := length_skipSpaces rest'
    let ⟨s, rest, h₃⟩ ← value (skipSpaces rest')
    return ⟨.value path s, rest, by omega⟩
  | _ => none

/-- What the line at the front of a text says, if anything. -/
def statement (cs : List Char) : Option (Taken (Option Statement) (cs.length + 1)) :=
  have h := Nat.succ_le_succ (length_skipSpaces cs)
  match skipSpaces cs with
  | [] | '#' :: _ | '\n' :: _ => some (.here none cs)
  | '[' :: '[' :: _ => do
    let t ← header ['[', '['] [']', ']'] .element (skipSpaces cs)
    return (t.map some).widen h
  | '[' :: _ => do
    let t ← header ['['] [']'] .table (skipSpaces cs)
    return (t.map some).widen h
  | _ => do
    let t ← assignment cs
    return t.map some

/-- The statements of a text, line by line. -/
def statements (cs : List Char) : Option (List Statement) := do
  let ⟨s, rest, _⟩ ← statement cs
  match h₂ : skipComment rest with
  | [] => return s.toList
  | '\n' :: rest' =>
    have := length_of_skipComment h₂
    return s.toList ++ (← statements rest')
  | _ => none
termination_by cs.length

/-- The text with every pair of a carriage return and a line feed made a line feed. -/
def unifyLines : List Char → List Char
  | [] => []
  | '\r' :: '\n' :: cs => '\n' :: unifyLines cs
  | c :: cs => c :: unifyLines cs

/-- The text without a byte order mark at its front. -/
def withoutMark : List Char → List Char
  | c :: cs => if c = '\uFEFF' then cs else c :: cs
  | [] => []

/-- The settings that a whole text says. -/
def read? (text : String) : Option (List (String × Setting)) := do
  Document.settings? (← statements (unifyLines (withoutMark text.toList)))

end Criteria.Toml
