import Criteria.Pattern.Basic
import Criteria.Text.Numeric
import Criteria.Text.Taken

/-!
# Reading patterns

The written form of patterns: literals and escapes, classes in brackets with nesting
and set operations, groups, alternatives, counted and uncounted repetition, and flags
that hold from where they are set to the end of their group. Look-around and references
to groups have no meaning in this language and make a text no pattern.

Groups are read with an explicit stack, one frame for each group that is still open.

## What is left out

Of the Unicode properties the reader knows those that the library has tables for: any
character, ASCII, letters, decimal digits and blank space. The other general categories,
such as `\p{L}` or `\p{Lu}`, and the scripts are refused like names that no property has.
There is no limit on the size of a pattern or on the nesting of its groups. No theorem of
this library depends on which texts are patterns or on what they match.
-/

namespace Criteria.Pattern

open Text (Taken)

/-- The flags that are in force at a place of a pattern. -/
structure Flags where
  caseless : Bool := false
  multiLine : Bool := false
  dotAll : Bool := false
  carriageReturn : Bool := false
  unicode : Bool := true
  verbose : Bool := false
  deriving DecidableEq, Repr

namespace Flags

/-- The flags after the letter `c` was set or cleared. The letter `U` exchanges what is
greedy, which no occurrence depends on. -/
def set? (f : Flags) (c : Char) (on : Bool) : Option Flags :=
  match c with
  | 'i' => some { f with caseless := on }
  | 'm' => some { f with multiLine := on }
  | 's' => some { f with dotAll := on }
  | 'R' => some { f with carriageReturn := on }
  | 'u' => some { f with unicode := on }
  | 'x' => some { f with verbose := on }
  | 'U' => some f
  | _ => none

/-- The class as the flags take it: with the variants of its characters if letter case
does not count. -/
def fold (f : Flags) (c : CharClass) : CharClass :=
  if !f.caseless then c
  else if f.unicode then .folded c
  else .combined .intersection (.folded c) (.ascii .ascii)

/-- Whether a character may be written where Unicode is switched off. -/
def admits (f : Flags) (c : Char) : Bool :=
  f.unicode || c.toNat < 0x80

def wordClass (f : Flags) : CharClass := if f.unicode then .word else .ascii .word

def digitClass (f : Flags) : CharClass := if f.unicode then .digit else .ascii .digit

def blankClass (f : Flags) : CharClass := if f.unicode then .blank else .ascii .space

/-- What a point stands for. -/
def dotClass? (f : Flags) : Option CharClass :=
  if !f.unicode then none
  else if f.dotAll then some .any
  else if f.carriageReturn then
    some (.complement (.combined .union (.single '\n') (.single '\r')))
  else some (.complement (.single '\n'))

end Flags

/-- The text behind the blanks and comments that the verbose form allows. -/
def skipVerbose (inComment : Bool) : List Char → List Char
  | [] => []
  | c :: cs =>
    if inComment then skipVerbose (c != '\n') cs
    else if Text.isBlank c then skipVerbose false cs
    else if c = '#' then skipVerbose true cs
    else c :: cs

theorem length_skipVerbose (inComment : Bool) (cs : List Char) :
    (skipVerbose inComment cs).length ≤ cs.length := by
  induction cs generalizing inComment with
  | nil => simp [skipVerbose]
  | cons c cs ih =>
    simp only [skipVerbose]
    split
    · exact Nat.le_succ_of_le (ih _)
    · split
      · exact Nat.le_succ_of_le (ih _)
      · split
        · exact Nat.le_succ_of_le (ih _)
        · exact Nat.le_refl _

def skip (f : Flags) (cs : List Char) : List Char :=
  if f.verbose then skipVerbose false cs else cs

theorem length_skip (f : Flags) (cs : List Char) : (skip f cs).length ≤ cs.length := by
  unfold skip
  split
  · exact length_skipVerbose _ _
  · exact Nat.le_refl _

/-! ## Escapes -/

/-- What one element of a pattern stands for. -/
inductive Atom where
  | literal (c : Char)
  | charClass (c : CharClass)
  | condition (k : Condition)
  deriving DecidableEq, Repr

/-- The characters that have a meaning of their own somewhere in patterns. -/
def isMeta (c : Char) : Bool :=
  ['\\', '.', '+', '*', '?', '(', ')', '|', '[', ']', '\x7b', '\x7d', '^', '$', '#', '&', '-',
    '~'].contains c

/-- The ASCII characters that may stand behind a backslash for themselves. -/
def isEscapable (c : Char) : Bool :=
  isMeta c ||
    (c.toNat < 0x80 && !Text.isAsciiLetter c && !Text.isAsciiDigit c && c != '<' && c != '>')

/-- The character with the hexadecimal code `digits`. -/
def hexChar? (digits : List Char) : Option Char := do
  let values ← digits.mapM Text.hexValue?
  let code := values.foldl (fun n d => 16 * n + d) 0
  if digits.isEmpty || !(code.isValidChar) then none else some (Char.ofNat code)

/-- A character by its code: between braces, or with a fixed number of digits. -/
def hexEscape (width : Nat) (cs : List Char) : Option (Taken Char (cs.length + 1)) :=
  match cs with
  | '\x7b' :: cs =>
    let digits := Taken.run (· != '\x7d') cs
    match h : digits.rest with
    | [] => none
    | _ :: rest =>
      (hexChar? digits.value).map fun c => ⟨c, rest, by
        have := digits.shorter
        simp only [h, List.length_cons] at this ⊢
        omega⟩
  | cs =>
    if cs.length < width then none
    else (hexChar? (cs.take width)).map fun c =>
      ⟨c, cs.drop width, Nat.lt_succ_of_le (cs.drop_sublist width).length_le⟩

/-- The name of a property without the differences that do not count. -/
def propertyName (cs : List Char) : String :=
  Text.toAsciiLower (String.ofList (cs.filter fun c => !(Text.isBlank c || c == '_' || c == '-')))

/-- The class of a property that the library has a table for. -/
def property? (name : String) : Option CharClass :=
  match name with
  | "any" => some .any
  | "ascii" => some (.ascii .ascii)
  | "alphabetic" | "alpha" => some .letter
  | "nd" | "decimalnumber" | "digit" => some .digit
  | "whitespace" | "space" | "wspace" => some .blank
  | _ => none

/-- The class of a property: one letter, or a name between braces, a leading caret for
the complement. -/
def propertyEscape (negative : Bool) (cs : List Char) : Option (Taken CharClass (cs.length + 1)) :=
  let result (negative : Bool) (name : List Char) : Option CharClass :=
    (property? (propertyName name)).map fun c => if negative then .complement c else c
  match cs with
  | [] => none
  | '\x7b' :: cs =>
    let name := Taken.run (· != '\x7d') cs
    match h : name.rest with
    | [] => none
    | _ :: rest =>
      let cls := match name.value with
        | '^' :: name => result (!negative) name
        | name => result negative name
      cls.map fun c => ⟨c, rest, name.length_lt h⟩
  | c :: cs => (result negative [c]).map fun c => ⟨c, cs, Nat.lt_add_of_pos_right Nat.two_pos⟩

/-- A word boundary by name, behind its opening brace. -/
def boundaryName? (name : String) : Option Condition :=
  match name with
  | "start" => some .wordStart
  | "end" => some .wordEnd
  | "start-half" => some .beforeWord
  | "end-half" => some .behindWord
  | _ => none

/-- What may follow a word boundary: the name of a special one between braces. -/
def boundary (cs : List Char) : Option (Taken Condition (cs.length + 1)) :=
  match cs with
  | '\x7b' :: inner =>
    let name := Taken.run (fun c => Text.isAsciiLetter c || c == '-') inner
    if name.value.isEmpty then some (.here .wordBoundary ('\x7b' :: inner))
    else
      match h : name.rest with
      | '\x7d' :: rest =>
        (boundaryName? (String.ofList name.value)).map fun k => ⟨k, rest, by
          have := name.shorter
          simp only [h, List.length_cons] at this ⊢
          omega⟩
      | _ => none
  | cs => some (.here .wordBoundary cs)

/-- What stands behind a backslash. -/
def escape (f : Flags) (cs : List Char) : Option (Taken Atom cs.length) :=
  match cs with
  | [] => none
  | c :: cs =>
    let here (a : Atom) : Option (Taken Atom (cs.length + 1)) := some (.here a cs)
    let positive (k : CharClass) := here (.charClass k)
    let negative (k : CharClass) := if f.unicode then here (.charClass (.complement k)) else none
    match c with
    | 'x' => (hexEscape 2 cs).map (·.map .literal)
    | 'u' => (hexEscape 4 cs).map (·.map .literal)
    | 'U' => (hexEscape 8 cs).map (·.map .literal)
    | 'p' => if f.unicode then (propertyEscape false cs).map (·.map .charClass) else none
    | 'P' => if f.unicode then (propertyEscape true cs).map (·.map .charClass) else none
    | 'd' => positive f.digitClass
    | 's' => positive f.blankClass
    | 'w' => positive f.wordClass
    | 'D' => negative f.digitClass
    | 'S' => negative f.blankClass
    | 'W' => negative f.wordClass
    | 'a' => here (.literal '\x07')
    | 'f' => here (.literal '\x0C')
    | 't' => here (.literal '\t')
    | 'n' => here (.literal '\n')
    | 'r' => here (.literal '\r')
    | 'v' => here (.literal '\x0B')
    | 'A' => here (.condition .textStart)
    | 'z' => here (.condition .textEnd)
    | 'b' => (boundary cs).map (·.map .condition)
    | 'B' => here (.condition .insideWord)
    | '<' => here (.condition .wordStart)
    | '>' => here (.condition .wordEnd)
    | c => if isEscapable c then here (.literal c) else none

/-! ## Classes in brackets -/

/-- One element of a class: a character, or a class that an escape stands for. -/
def classItem (f : Flags) (cs : List Char) : Option (Taken Atom cs.length) :=
  match cs with
  | [] => none
  | '\\' :: cs =>
    match escape f cs with
    | some ⟨.condition _, _, _⟩ | none => none
    | some t => some t.behind
  | c :: cs => some (.here (.literal c) cs)

def atomClass? (f : Flags) : Atom → Option CharClass
  | .literal c => if f.admits c then some (.single c) else none
  | .charClass c => some c
  | .condition _ => none

/-- One element of a class or a range between two. A hyphen before the end of the class
or before another hyphen makes no range. -/
def classRange (f : Flags) (cs : List Char) : Option (Taken CharClass cs.length) := do
  let first ← classItem f cs
  let alone := (atomClass? f first.value).map fun c =>
    (⟨c, first.rest, first.shorter⟩ : Taken CharClass cs.length)
  match h : skip f first.rest with
  | '-' :: rest =>
    match h₁ : skip f rest with
    | [] => none
    | c :: rest' =>
      if c = ']' || c = '-' then alone
      else
        let second ← classItem f (c :: rest')
        match first.value, second.value with
        | .literal low, .literal high =>
          if low ≤ high && f.admits high then
            some ⟨.range low high, second.rest, by
              have s := second.shorter
              have a := length_skip f first.rest
              have b := length_skip f rest
              have t := first.shorter
              rw [h] at a
              rw [h₁] at b
              simp only [List.length_cons] at a b s
              omega⟩
          else none
        | _, _ => none
  | _ => alone

/-- A class by its ASCII name, behind the opening bracket. -/
def asciiClass? (cs : List Char) : Option (Taken CharClass (cs.length + 1)) :=
  match cs with
  | ':' :: cs =>
    let (negative, body) := match cs with
      | '^' :: cs => (true, cs)
      | cs => (false, cs)
    let name := body.takeWhile Text.isAsciiLetter
    let rest := body.drop name.length
    match rest with
    | ':' :: ']' :: _ =>
      (AsciiClass.ofName? (String.ofList name)).map fun c =>
        ⟨if negative then .complement (.ascii c) else .ascii c,
          cs.drop (cs.length - (rest.length - 2)),
          by have := (cs.drop_sublist (cs.length - (rest.length - 2))).length_le; simp; omega⟩
    | _ => none
  | _ => none

/-- A class that is being read: what an operator before the current part joins it to,
the operator, and the part. -/
structure OpenClass where
  left : Option (CharClass × ClassOp) := none
  part : CharClass := .empty
  negative : Bool := false

namespace OpenClass

def add (o : OpenClass) (c : CharClass) : OpenClass :=
  { o with part := .combined .union o.part c }

/-- The class so far. -/
def joined (o : OpenClass) (f : Flags) : CharClass :=
  match o.left with
  | none => o.part
  | some (c, op) => .combined op (f.fold c) (f.fold o.part)

def operate (o : OpenClass) (f : Flags) (op : ClassOp) : OpenClass :=
  { o with left := some (o.joined f, op), part := .empty }

/-- The class when its bracket closes. -/
def close? (o : OpenClass) (f : Flags) : Option CharClass :=
  let c := f.fold (o.joined f)
  if !o.negative then some c else if f.unicode then some (.complement c) else none

end OpenClass

/-- Hyphens directly behind the opening bracket of a class stand for themselves. -/
def leadingHyphens (f : Flags) (o : OpenClass) : Nat → List Char → OpenClass × List Char
  | 0, cs => (o, cs)
  | n + 1, cs =>
    match cs with
    | '-' :: rest => leadingHyphens f (o.add (.single '-')) n (skip f rest)
    | cs => (o, cs)

theorem length_leadingHyphens (f : Flags) (o : OpenClass) (n : Nat) (cs : List Char) :
    (leadingHyphens f o n cs).2.length ≤ cs.length := by
  induction n generalizing o cs with
  | zero => simp [leadingHyphens]
  | succ n ih =>
    unfold leadingHyphens
    split
    · rename_i rest
      refine Nat.le_trans (ih _ _) ?_
      have := length_skip f rest
      simp only [List.length_cons]
      omega
    · exact Nat.le_refl _

/-- The start of a class behind its opening bracket: a caret, hyphens, and a closing
bracket that stands for itself because nothing stands before it. -/
def openClass (f : Flags) (cs : List Char) : Taken OpenClass (cs.length + 1) :=
  let start : OpenClass × List Char := match skip f cs with
    | '^' :: rest => ({ negative := true }, skip f rest)
    | rest => ({}, rest)
  let hyphens := leadingHyphens f start.1 start.2.length start.2
  have hs : start.2.length ≤ cs.length := by
    have h := length_skip f cs
    simp only [start]
    split
    · rename_i rest heq
      have := length_skip f rest
      rw [heq] at h
      simp only [List.length_cons] at h
      exact Nat.le_trans this (by omega)
    · exact h
  have hh : hyphens.2.length ≤ start.2.length := length_leadingHyphens f _ _ _
  match h : hyphens.2 with
  | ']' :: rest =>
    match start.2 with
    | ']' :: _ => ⟨hyphens.1.add (.single ']'), rest, by
        rw [h] at hh
        simp only [List.length_cons] at hh
        omega⟩
    | _ => ⟨hyphens.1, hyphens.2, by omega⟩
  | _ => ⟨hyphens.1, hyphens.2, by omega⟩

/-- The operator that two equal characters between parts of a class stand for. -/
def classOp? : List Char → Option ClassOp
  | '&' :: '&' :: _ => some .intersection
  | '-' :: '-' :: _ => some .difference
  | '~' :: '~' :: _ => some .symmetricDifference
  | _ => none

/-- The rest of a class; `outer` are the classes around it that are still open. -/
def classBody (f : Flags) (outer : List OpenClass) (o : OpenClass) (cs : List Char) :
    Option (Taken CharClass (cs.length + 1)) :=
  match h : skip f cs with
  | [] => none
  | c :: rest =>
    have hr : rest.length < cs.length := by
      have := length_skip f cs
      rw [h] at this
      simp only [List.length_cons] at this
      omega
    if c = '[' then
      match asciiClass? rest with
      | some t =>
        have := t.shorter
        (classBody f outer (o.add t.value) t.rest).map (·.widen (by omega))
      | none =>
        have := (openClass f rest).shorter
        (classBody f (o :: outer) (openClass f rest).value (openClass f rest).rest).map
          (·.widen (by omega))
    else if c = ']' then
      match o.close? f with
      | none => none
      | some k =>
        match outer with
        | [] => some ⟨k, rest, by omega⟩
        | around :: outer =>
          (classBody f outer (around.add k) rest).map (·.widen (by omega))
    else
      match classOp? (c :: rest) with
      | some op =>
        have := (rest.drop_sublist 1).length_le
        (classBody f outer (o.operate f op) (rest.drop 1)).map (·.widen (by omega))
      | none =>
        match classRange f (c :: rest) with
        | none => none
        | some t =>
          have ht := t.shorter
          have hc : (c :: rest).length = rest.length + 1 := rfl
          (classBody f outer (o.add t.value) t.rest).map (·.widen (by omega))
termination_by cs.length
decreasing_by all_goals omega

/-! ## Repetition -/

/-- A count between blanks, as far as 32 bits hold it. -/
def count? (cs : List Char) : Option Nat × List Char :=
  let cs := Text.trimStart cs
  let digits := cs.takeWhile Text.isAsciiDigit
  let n := Text.digitsValue digits
  (if digits.isEmpty || 2 ^ (32 : Nat) ≤ n then none else some n,
    Text.trimStart (cs.drop digits.length))

/-- The bounds of a repetition behind its opening brace. -/
def bounds? (f : Flags) (cs : List Char) : Option ((Nat × Option Nat) × List Char) :=
  match count? cs with
  | (none, _) => none
  | (some least, '\x7d' :: rest) => some ((least, some least), rest)
  | (some least, ',' :: rest) =>
    match skip f rest with
    | '\x7d' :: rest => some ((least, none), rest)
    | rest =>
      match count? rest with
      | (some most, '\x7d' :: rest) =>
        if least ≤ most then some ((least, some most), rest) else none
      | _ => none
  | _ => none

/-! ## Groups -/

/-- What an opening parenthesis starts. -/
inductive GroupStart where
  | group (flags : Flags)
  | flags (flags : Flags)

/-- The flags between a question mark and the end of its list. Each letter may stand once,
and something has to follow the hyphen. -/
def flagList (f : Flags) (seen : List Char) (on fresh : Bool) : List Char →
    Option ((Flags × Bool × Bool) × Char × List Char)
  | [] => none
  | c :: cs =>
    if c = ':' || c = ')' then
      if !on && fresh then none else some ((f, seen.isEmpty && on, on), c, cs)
    else if c = '-' then if on then flagList f seen false true cs else none
    else if seen.contains c then none
    else (f.set? c on).bind fun f => flagList f (c :: seen) on false cs

/-- The name of a group up to its closing angle. -/
def groupName? (names : List String) (cs : List Char) : Option (String × List Char) :=
  let name := cs.takeWhile (· != '>')
  let start (c : Char) := c == '_' || Text.isAlphabetic c
  let follow (c : Char) := c == '_' || c == '.' || c == '[' || c == ']' || Text.isAlphanumeric c
  match name, cs.drop name.length with
  | c :: more, _ :: rest =>
    if start c && more.all follow && !names.contains (String.ofList name) then
      some (String.ofList name, rest)
    else none
  | _, _ => none

/-- The start of a group behind its parenthesis: the names of groups so far, and what
starts. -/
def groupStart? (f : Flags) (names : List String) (cs : List Char) :
    Option ((List String × GroupStart) × List Char) :=
  let named (cs : List Char) :=
    (groupName? names cs).map fun (n, rest) => ((n :: names, .group f), rest)
  match cs with
  | '?' :: '=' :: _ | '?' :: '!' :: _ | '?' :: '<' :: '=' :: _ | '?' :: '<' :: '!' :: _ => none
  | '?' :: 'P' :: '<' :: cs => named cs
  | '?' :: '<' :: cs => named cs
  | '?' :: cs =>
    match flagList f [] true false cs with
    | none => none
    | some ((f', bare, _), ')', rest) => if bare then none else some ((names, .flags f'), rest)
    | some ((f', _, _), _, rest) => some ((names, .group f'), rest)
  | cs => some ((names, .group f), cs)

/-- A group that is being read: the flags around it, the alternatives before the current
one, and the elements of the current one from last to first. An element without a
pattern has set flags. -/
structure Frame where
  around : Flags
  alternatives : List Pattern := []
  elements : List (Option Pattern) := []

namespace Frame

def push (g : Frame) (p : Pattern) : Frame :=
  { g with elements := some p :: g.elements }

/-- The elements of the current alternative in a row. -/
def row (g : Frame) : Pattern :=
  g.elements.foldl (fun p e => match e with
    | some q => match p with
      | .empty => q
      | p => .both q p
    | none => p) .empty

def nextAlternative (g : Frame) : Frame :=
  { g with alternatives := g.row :: g.alternatives, elements := [] }

/-- The pattern when the group closes. -/
def close (g : Frame) : Pattern :=
  g.alternatives.foldl (fun p a => .either a p) g.row

/-- Repeats the last element. There has to be one, and it must not have set flags. -/
def repeatLast? (g : Frame) (least : Nat) (most : Option Nat) : Option Frame :=
  match g.elements with
  | some p :: rest => some { g with elements := some (.repeated p least most) :: rest }
  | _ => none

end Frame

/-- The pattern of an atom under the flags. -/
def atomPattern? (f : Flags) : Atom → Option Pattern
  | .literal c => if f.admits c then some (.one (f.fold (.single c))) else none
  | .charClass c => some (.one c)
  | .condition k => some (.condition k f.wordClass)

/-- What a caret and a dollar ask. -/
def lineStart (f : Flags) : Condition :=
  if !f.multiLine then .textStart else if f.carriageReturn then .lineStartOrReturn else .lineStart

def lineEnd (f : Flags) : Condition :=
  if !f.multiLine then .textEnd else if f.carriageReturn then .lineEndOrReturn else .lineEnd

/-- The text behind a question mark that only changes what is greedy. -/
def dropLazy : List Char → List Char
  | '?' :: cs => cs
  | cs => cs

/-- The rest of a pattern: `names` are the groups named so far, `outer` the open groups
around the current one, `f` the flags in force. A step that would not shorten the text
has no meaning and does not occur. -/
def body (names : List String) (outer : List Frame) (g : Frame) (f : Flags) (cs : List Char) :
    Option Pattern :=
  match skip f cs, length_skip f cs with
  | [], _ => if outer.isEmpty then some g.close else none
  | c :: rest, h =>
    have : rest.length < cs.length := h
    let continue_ (names : List String) (outer : List Frame) (g : Frame) (f : Flags)
        (next : List Char) : Option Pattern :=
      if _ : next.length ≤ rest.length then body names outer g f next else none
    match c with
    | '(' =>
      match groupStart? f names (skip f rest) with
      | none => none
      | some ((names, .flags f'), rest) =>
        continue_ names outer { g with elements := none :: g.elements } f' rest
      | some ((names, .group f'), rest) => continue_ names (g :: outer) { around := f } f' rest
    | ')' =>
      match outer with
      | [] => none
      | around :: outer => continue_ names outer (around.push g.close) g.around rest
    | '|' => continue_ names outer g.nextAlternative f rest
    | '[' =>
      let o := openClass f rest
      match classBody f [] o.value o.rest with
      | none => none
      | some t => continue_ names outer (g.push (.one t.value)) f t.rest
    | '?' => (g.repeatLast? 0 (some 1)).bind fun g => continue_ names outer g f (dropLazy (skip f rest))
    | '*' => (g.repeatLast? 0 none).bind fun g => continue_ names outer g f (dropLazy (skip f rest))
    | '+' => (g.repeatLast? 1 none).bind fun g => continue_ names outer g f (dropLazy (skip f rest))
    | '\x7b' =>
      match bounds? f (skip f rest) with
      | none => none
      | some ((least, most), rest) =>
        (g.repeatLast? least most).bind fun g => continue_ names outer g f (dropLazy (skip f rest))
    | '\\' =>
      match escape f rest with
      | none => none
      | some t =>
        (atomPattern? f t.value).bind fun p => continue_ names outer (g.push p) f t.rest
    | '.' => f.dotClass?.bind fun k => continue_ names outer (g.push (.one k)) f rest
    | '^' => continue_ names outer (g.push (.condition (lineStart f) f.wordClass)) f rest
    | '$' => continue_ names outer (g.push (.condition (lineEnd f) f.wordClass)) f rest
    | c => (atomPattern? f (.literal c)).bind fun p => continue_ names outer (g.push p) f rest
termination_by cs.length

/-- The pattern that a whole text is, of those that this module knows. -/
def ofText? (cs : List Char) : Option Pattern :=
  body [] [] { around := {} } {} cs

end Criteria.Pattern
