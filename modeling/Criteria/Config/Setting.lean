import Criteria.Config.Basic
import Criteria.Decimal.Numeral
import Criteria.Value.Text

/-!
# Settings

A setting is what a configuration file or an environment variable says: a flag, a
number, a text, a list or a table. Later sources go over earlier ones: `overlay` joins
two tables member by member and lets everything else replace what was there, and
`place` does so below a path of keys.

A setting is read generously. A text may stand for a flag or a port, a number for a
flag or a text, and so on, as far as the meaning is plain.
-/

namespace Criteria

inductive Setting where
  | flag (b : Bool)
  | int (n : Int)
  | float (x : Binary64)
  | text (s : String)
  | list (items : List Setting)
  | table (members : List (String × Setting))
  deriving Repr

namespace Setting

/-- The members of a table; nothing else has any. -/
def members : Setting → List (String × Setting)
  | .table entries => entries
  | _ => []

/-- Named settings, in increasing order of the names, with the one under `key` changed. -/
def change (key : String) (f : Option Setting → Setting) :
    List (String × Setting) → List (String × Setting)
  | [] => [(key, f none)]
  | (k, s) :: rest =>
    if key < k then (key, f none) :: (k, s) :: rest
    else if key = k then (k, f (some s)) :: rest
    else (k, s) :: change key f rest

/-- The members that a setting has, if there is one. -/
def membersOf (base : Option Setting) : List (String × Setting) :=
  (base.map members).getD []

mutual

/-- A setting put over another one. -/
def overlay (base : Option Setting) : Setting → Setting
  | .table entries => .table (overlayAll (membersOf base) entries)
  | .flag b => .flag b
  | .int n => .int n
  | .float x => .float x
  | .text s => .text s
  | .list items => .list items

/-- Named settings put over others. -/
def overlayAll (base : List (String × Setting)) : List (String × Setting) → List (String × Setting)
  | [] => base
  | (key, s) :: rest => overlayAll (change key (fun old => overlay old s) base) rest

end

/-- A setting put over the one that a path leads to. -/
def place (s : Setting) : List String → Option Setting → Setting
  | [], base => overlay base s
  | key :: path, base => .table (change key (place s path) (membersOf base))

/-- The characters of a key in a dotted path. -/
def isKeyChar (c : Char) : Bool :=
  Text.isAsciiLetter c || Text.isAsciiDigit c || c == '_' || c == '-'

/-- The keys that a dotted path names. A text that is no such path is one key. -/
def path (name : String) : List String :=
  let keys := name.splitOn "."
  if keys.all fun k => k ≠ "" && k.toList.all isKeyChar then keys else [name]

/-- Named settings put over a setting, each at the path that its name is. -/
def placeAll (base : Setting) (entries : List (String × Setting)) : Setting :=
  entries.foldl (fun base e => place e.2 (path e.1) (some base)) base

/-! ## Reading settings -/

def text? : Setting → Option String
  | .flag b => some (if b then "true" else "false")
  | .int n => some (intText n)
  | .float x => some (String.ofList x.plainText)
  | .text s => some s
  | .list _ | .table _ => none

/-- The words for yes and no. -/
def wordFlag? (s : String) : Option Bool :=
  match Text.toAsciiLower s with
  | "true" | "on" | "yes" => some true
  | "false" | "off" | "no" => some false
  | _ => none

def flag? : Setting → Option Bool
  | .flag b => some b
  | .int n => some (n != 0)
  | .float x => some (!x.isZero)
  | .text s =>
    match s with
    | "1" => some true
    | "0" => some false
    | _ => wordFlag? s
  | .list _ | .table _ => none

/-- A floating number to the nearest natural number, a half upwards. Negative numbers
give zero, and so does a NaN; infinity exceeds every port. -/
def rounded (x : Binary64) : Nat :=
  if x.isNaN || x.negative then 0
  else (2 * Binary64.units x.rank + Binary64.unitsPerOne) / (2 * Binary64.unitsPerOne)

def port? : Setting → Option Port
  | .flag b => some (if b then 1 else 0)
  | .int n => if n < 0 then none else Port.ofNat? n.toNat
  | .float x => Port.ofNat? (rounded x)
  | .text s =>
    match wordFlag? s with
    | some b => some (if b then 1 else 0)
    | none => Port.ofText? s
  | .list _ | .table _ => none

mutual

/-- The value that a setting is; a number without a finite value is null. -/
def toValue : Setting → Value
  | .flag b => .bool b
  | .int n => .ofInt n
  | .float x => .ofFloat x
  | .text s => .string s
  | .list items => .array (toValues items)
  | .table entries => .object (Record.ofList (toEntries entries))

def toValues : List Setting → List Value
  | [] => []
  | s :: rest => toValue s :: toValues rest

def toEntries : List (String × Setting) → List (String × Value)
  | [] => []
  | (key, s) :: rest => (key, toValue s) :: toEntries rest

end

/-- The record that a table is. -/
def record? : Setting → Option Record
  | .table entries => some (Record.ofList (toEntries entries))
  | _ => none

/-- The setting that the text of an environment variable denotes: a flag in any letter
case, else an integer of 64 bits, else a floating number, else the text itself. -/
def ofText (s : String) : Setting :=
  match Text.toAsciiLower s with
  | "true" => .flag true
  | "false" => .flag false
  | _ =>
    match (Numeral.signedInt? s.toList).filter fun n => Fits n with
    | some n => .int n
    | none =>
      match Binary64.ofText? s.toList with
      | some x => .float x
      | none => .text s

end Setting

end Criteria
