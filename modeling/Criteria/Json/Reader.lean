import Criteria.Json.Numeral

/-!
# Reading JSON

The value that a JSON text is. Strings stand for Unicode text, so an escaped surrogate
needs its partner; of equal keys in an object the last one counts; arrays and objects
may be nested 127 deep. A text that is no JSON either ends too early or has a fault in
its wording, and the first place where one of the two happens decides.
-/

namespace Criteria.Json

open Text (Taken)

/-- The levels of arrays and objects that a text may have. -/
def maxNesting : Nat := 127

/-- The text behind the blanks at its front. -/
def skip (cs : List Char) : List Char :=
  cs.dropWhile Text.isPlainBlank

theorem length_skip (cs : List Char) : (skip cs).length ≤ cs.length :=
  (List.dropWhile_sublist _).length_le

/-! ## Strings -/

/-- The code of four hexadecimal digits. A text of fewer than four bytes has ended. -/
def hexCode (cs : List Char) : Except Fault Nat :=
  if (cs.take 4).foldr (fun c n => c.utf8Size + n) 0 < 4 then .error .ended
  else
    match (cs.take 4).mapM Text.hexValue? with
    | some values => .ok (values.foldl (fun n d => 16 * n + d) 0)
    | none => .error .malformed

def isLeading (code : Nat) : Bool := 0xD800 ≤ code && code ≤ 0xDBFF

def isTrailing (code : Nat) : Bool := 0xDC00 ≤ code && code ≤ 0xDFFF

/-- The character of an escape by code, and the extent of the escape behind its letter. -/
def codeEscape (cs : List Char) : Except Fault (Char × Nat) := do
  let code ← hexCode cs
  if isTrailing code then throw .malformed
  else if !isLeading code then return (Char.ofNat code, 4)
  else
    match cs.drop 4 with
    | [] => throw .ended
    | '\\' :: rest =>
      match rest with
      | [] => throw .ended
      | 'u' :: rest =>
        let second ← hexCode rest
        if isTrailing second then
          return (Char.ofNat (0x10000 + (code - 0xD800) * 0x400 + (second - 0xDC00)), 10)
        else throw .malformed
      | _ => throw .malformed
    | _ => throw .malformed

/-- The character that a letter behind a backslash stands for. -/
def letterEscape? (c : Char) : Option Char :=
  match c with
  | '"' => some '"'
  | '\\' => some '\\'
  | '/' => some '/'
  | 'b' => some '\x08'
  | 'f' => some '\x0C'
  | 'n' => some '\n'
  | 'r' => some '\r'
  | 't' => some '\t'
  | _ => none

/-- The rest of a string behind its opening quote. -/
def stringBody (cs : List Char) : Except Fault (Taken (List Char) cs.length) :=
  match cs with
  | [] => .error .ended
  | '"' :: cs => .ok (.here [] cs)
  | '\\' :: cs =>
    match cs with
    | [] => .error .ended
    | 'u' :: cs => do
      let (c, n) ← codeEscape cs
      let t ← stringBody (cs.drop n)
      return (t.map (c :: ·)).widen (Text.length_drop_le n cs)
    | c :: cs =>
      match letterEscape? c with
      | none => .error .malformed
      | some c => do
        let t ← stringBody cs
        return (t.map (c :: ·)).widen (Nat.le_add_right _ 2)
  | c :: cs =>
    if c.toNat < 0x20 then .error .malformed
    else do
      let t ← stringBody cs
      return (t.map (c :: ·)).behind
termination_by cs.length
decreasing_by
  · exact Text.length_drop_lt _ _
  · exact Nat.lt_add_of_pos_right Nat.two_pos
  · exact Nat.lt_succ_self _

/-! ## Values -/

/-- A word in full. -/
def word (expected : List Char) (cs : List Char) : Except Fault (List Char) :=
  match expected, cs with
  | [], cs => .ok cs
  | _ :: _, [] => .error .ended
  | e :: es, c :: cs => if c = e then word es cs else .error .malformed

theorem length_word {expected cs rest : List Char} (h : word expected cs = .ok rest) :
    rest.length ≤ cs.length := by
  induction expected generalizing cs with
  | nil => cases h; exact Nat.le_refl _
  | cons e es ih =>
    cases cs with
    | nil => simp [word] at h
    | cons c cs =>
      simp only [word] at h
      split at h
      · exact Nat.le_succ_of_le (ih h)
      · cases h

/-- The value that the word behind its first letter stands for. -/
def wordValue (v : Value) (expected : List Char) (cs : List Char) :
    Except Fault (Taken Value (cs.length + 1)) :=
  match h : word expected cs with
  | .ok rest => .ok ⟨v, rest, Nat.lt_succ_of_le (length_word h)⟩
  | .error e => .error e

mutual

/-- The value at the front of a text, with `room` levels of nesting left. -/
def value (room : Nat) (cs : List Char) : Except Fault (Taken Value cs.length) :=
  match h : skip cs with
  | [] => .error .ended
  | c :: rest =>
    have hr : rest.length < cs.length := by
      have := length_skip cs
      rw [h] at this
      exact this
    if c = 'n' then do return (← wordValue .null ['u', 'l', 'l'] rest).widen hr
    else if c = 't' then do return (← wordValue (.bool true) ['r', 'u', 'e'] rest).widen hr
    else if c = 'f' then do return (← wordValue (.bool false) ['a', 'l', 's', 'e'] rest).widen hr
    else if c = '"' then do
      let t ← stringBody rest
      return (t.map fun s => .string (String.ofList s)).widen (Nat.le_of_lt hr)
    else if c = '[' then
      match room with
      | 0 => .error .malformed
      | room + 1 => do
        let t ← items room true rest
        return (t.map .array).widen hr
    else if c = '\x7b' then
      match room with
      | 0 => .error .malformed
      | room + 1 => do
        let t ← members room true [] rest
        return (t.map .object).widen hr
    else if c = '-' || Text.isAsciiDigit c then do
      let t ← numeral (c :: rest)
      return (t.map .number).widen hr
    else .error .malformed
termination_by 3 * cs.length

/-- The items of an array up to its closing bracket. -/
def items (room : Nat) (first : Bool) (cs : List Char) :
    Except Fault (Taken (List Value) (cs.length + 1)) :=
  match h : skip cs with
  | [] => .error .ended
  | c :: rest =>
    have hr : rest.length < cs.length := by
      have := length_skip cs
      rw [h] at this
      exact this
    if c = ']' then .ok ⟨[], rest, Nat.lt_succ_of_lt hr⟩
    else if first then do
      let ⟨v, rest, h₁⟩ ← value room cs
      let t ← items room false rest
      return (t.map (v :: ·)).widen (by omega)
    else if c = ',' then
      match h₂ : skip rest with
      | [] => .error .ended
      | d :: _ =>
        if d = ']' then .error .malformed
        else do
          let ⟨v, rest, h₁⟩ ← value room rest
          let t ← items room false rest
          return (t.map (v :: ·)).widen (by omega)
    else .error .malformed
termination_by 3 * cs.length + 1

/-- The members of an object up to its closing brace, put into `done`. -/
def members (room : Nat) (first : Bool) (done : Record) (cs : List Char) :
    Except Fault (Taken Record (cs.length + 1)) :=
  match h : skip cs with
  | [] => .error .ended
  | c :: rest =>
    have hr : rest.length < cs.length := by
      have := length_skip cs
      rw [h] at this
      exact this
    if c = '\x7d' then .ok ⟨done, rest, Nat.lt_succ_of_lt hr⟩
    else if first then member room done cs
    else if c = ',' then
      match h₂ : skip rest with
      | [] => .error .ended
      | d :: _ =>
        if d = '\x7d' then .error .malformed
        else do
          let t ← member room done rest
          return t.widen (Nat.succ_le_succ (Nat.le_of_lt hr))
    else .error .malformed
termination_by 3 * cs.length + 2

/-- One member of an object and those behind it. -/
def member (room : Nat) (done : Record) (cs : List Char) :
    Except Fault (Taken Record (cs.length + 1)) :=
  match h : skip cs with
  | '"' :: rest =>
    have hr : rest.length < cs.length := by
      have := length_skip cs
      rw [h] at this
      exact this
    do
      let ⟨key, rest, h₁⟩ ← stringBody rest
      match h₂ : skip rest with
      | ':' :: rest' =>
        have hc : rest'.length < rest.length := by
          have := length_skip rest
          rw [h₂] at this
          exact this
        let ⟨v, rest, h₃⟩ ← value room rest'
        let t ← members room false (done.insert (String.ofList key) v) rest
        return t.widen (by omega)
      | rest => .error (faultAt rest)
  | rest => .error (faultAt rest)
termination_by 3 * cs.length + 1

end

/-- The value that a whole text is. -/
def read (text : String) : Except Fault Value :=
  match value maxNesting text.toList with
  | .error e => .error e
  | .ok t => if (skip t.rest).isEmpty then .ok t.value else .error .malformed

end Criteria.Json
