import Criteria.Binary64.Basic

/-!
# Values

A value is what a rule compares, a context stores and an expression yields: null,
a truth value, a number, a string, an array or an object. Integers and floating
numbers are different numbers, also where they are equal in size.

An object is an association list. `Record.insert` keeps the keys in increasing
order and distinct, which every reader in this library uses; the type alone does
not promise it.
-/

namespace Criteria

/-- A number of the data format: an integer of 64 bits, signed or not, or a finite
floating number. -/
inductive Number where
  | int (n : Int) (lower : -2 ^ (63 : Nat) ≤ n) (upper : n < 2 ^ (64 : Nat))
  | float (x : Binary64) (finite : x.isFinite = true)
  deriving DecidableEq, Repr

inductive Value where
  | null
  | bool (b : Bool)
  | number (n : Number)
  | string (s : String)
  | array (items : List Value)
  | object (entries : List (String × Value))
  deriving Repr

/-- Named values in increasing order of their names. -/
abbrev Record := List (String × Value)

namespace Record

/-- The record with `value` under `key`, in place of an older value. -/
def insert (key : String) (value : Value) : Record → Record
  | [] => [(key, value)]
  | (k, v) :: rest =>
    if key < k then (key, value) :: (k, v) :: rest
    else if key = k then (key, value) :: rest
    else (k, v) :: insert key value rest

/-- The record of a list of entries, of which the last one counts for each key. -/
def ofList (entries : List (String × Value)) : Record :=
  entries.foldl (fun r e => insert e.1 e.2 r) []

end Record

namespace Value

/-- The kinds of value that messages tell apart. -/
inductive Kind where
  | null
  | boolean
  | number
  | string
  | array
  | object
  deriving DecidableEq, Repr

def Kind.name : Kind → String
  | .null => "null"
  | .boolean => "boolean"
  | .number => "number"
  | .string => "string"
  | .array => "array"
  | .object => "object"

def kind : Value → Kind
  | .null => .null
  | .bool _ => .boolean
  | .number _ => .number
  | .string _ => .string
  | .array _ => .array
  | .object _ => .object

def isNull : Value → Bool
  | .null => true
  | _ => false

/-- Whether a value is no array and no object. -/
def isScalar : Value → Bool
  | .array _ | .object _ => false
  | _ => true

/-- The finite number `x`, or null. -/
def ofFloat (x : Binary64) : Value :=
  if h : x.isFinite = true then .number (.float x h) else .null

/-- The integer `n`, or null where 64 bits do not hold it. -/
def ofInt (n : Int) : Value :=
  if h : -2 ^ (63 : Nat) ≤ n ∧ n < 2 ^ (64 : Nat) then .number (.int n h.1 h.2) else .null

mutual

def decEq (a b : Value) : Decidable (a = b) :=
  match a, b with
  | .null, .null => isTrue rfl
  | .bool a, .bool b => if h : a = b then isTrue (h ▸ rfl) else isFalse (by simpa using h)
  | .number a, .number b => if h : a = b then isTrue (h ▸ rfl) else isFalse (by simpa using h)
  | .string a, .string b => if h : a = b then isTrue (h ▸ rfl) else isFalse (by simpa using h)
  | .array xs, .array ys =>
    match decEqItems xs ys with
    | isTrue h => isTrue (h ▸ rfl)
    | isFalse h => isFalse (by simpa using h)
  | .object xs, .object ys =>
    match decEqEntries xs ys with
    | isTrue h => isTrue (h ▸ rfl)
    | isFalse h => isFalse (by simpa using h)
  | .null, .bool _ | .null, .number _ | .null, .string _ | .null, .array _ | .null, .object _
  | .bool _, .null | .bool _, .number _ | .bool _, .string _ | .bool _, .array _
  | .bool _, .object _ | .number _, .null | .number _, .bool _ | .number _, .string _
  | .number _, .array _ | .number _, .object _ | .string _, .null | .string _, .bool _
  | .string _, .number _ | .string _, .array _ | .string _, .object _ | .array _, .null
  | .array _, .bool _ | .array _, .number _ | .array _, .string _ | .array _, .object _
  | .object _, .null | .object _, .bool _ | .object _, .number _ | .object _, .string _
  | .object _, .array _ => isFalse nofun

def decEqItems (a b : List Value) : Decidable (a = b) :=
  match a, b with
  | [], [] => isTrue rfl
  | x :: xs, y :: ys =>
    match decEq x y, decEqItems xs ys with
    | isTrue h, isTrue hs => isTrue (by rw [h, hs])
    | isFalse h, _ => isFalse (by simp [h])
    | _, isFalse hs => isFalse (by simp [hs])
  | [], _ :: _ | _ :: _, [] => isFalse nofun

def decEqEntries (a b : List (String × Value)) : Decidable (a = b) :=
  match a, b with
  | [], [] => isTrue rfl
  | (k, x) :: xs, (l, y) :: ys =>
    match decEq x y, decEqEntries xs ys with
    | isTrue h, isTrue hs =>
      if hk : k = l then isTrue (by rw [h, hs, hk]) else isFalse (by simp [hk])
    | isFalse h, _ => isFalse (by simp [h])
    | _, isFalse hs => isFalse (by simp [hs])
  | [], _ :: _ | _ :: _, [] => isFalse nofun

end

instance : DecidableEq Value := decEq

end Value

end Criteria
