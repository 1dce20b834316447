import Criteria.Json.Reader
import Criteria.Rule.Basic
import Criteria.Rule.Error

/-!
# Reading rules

The tree of rules in a value. An entry with a member `rules` other than null is a group,
every other entry is a comparison; further members do not matter. The first entry in
the order of the document that is not well-formed decides the error.
-/

namespace Criteria

/-- The member `key` of an object. -/
def Value.member? (v : Value) (key : String) : Option Value :=
  match v with
  | .object entries => entries.lookup key
  | _ => none

/-- Whether a value has rules, and so is a group among rules. -/
def Value.hasRules (v : Value) : Bool :=
  match v.member? "rules" with
  | none | some .null => false
  | some _ => true

theorem sizeOf_lookup {entries : List (String × Value)} {key : String} {v : Value}
    (h : entries.lookup key = some v) : sizeOf v < sizeOf entries := by
  induction entries with
  | nil => simp at h
  | cons e rest ih =>
    obtain ⟨k, w⟩ := e
    rw [List.lookup_cons] at h
    split at h
    · cases h; simp; omega
    · have := ih h; simp; omega

namespace Rule

def flaw {α : Type} (path : Path) (f : Flaw) : Except RuleError α :=
  .error (.malformed (.rule path f))

/-- The connective of a group at `path`. -/
def readConnective (path : Path) (entries : Record) : Except RuleError Connective :=
  match entries.lookup "condition" with
  | none => flaw path (.missing .condition)
  | some (.string s) =>
    match Connective.ofName? s with
    | some c => .ok c
    | none => flaw path (.unknownCondition s)
  | some _ => flaw path (.notString .condition)

def readField (path : Path) (entries : Record) : Except RuleError String :=
  match entries.lookup "field" with
  | none => flaw path (.missing .field)
  | some (.string s) => if s = "" then flaw path .emptyField else .ok s
  | some _ => flaw path (.notString .field)

def readOp (path : Path) (entries : Record) : Except RuleError RuleOp :=
  match entries.lookup "operator" with
  | none => flaw path (.missing .operator)
  | some (.string s) => .ok (.ofName s)
  | some _ => flaw path (.notString .operator)

def readOperand (path : Path) (entries : Record) : Except RuleError Value :=
  match entries.lookup "value" with
  | none => flaw path (.missing .value)
  | some v => .ok v

/-- The comparison at `path`. -/
def readLeaf (path : Path) (v : Value) : Except RuleError Leaf :=
  match v with
  | .object entries => do
    let field ← readField path entries
    let op ← readOp path entries
    let value ← readOperand path entries
    return ⟨field, op, value⟩
  | _ => flaw path .leafNotObject

mutual

/-- The group at `path`. -/
def readGroup (path : Path) (v : Value) : Except RuleError RuleGroup :=
  match v with
  | .object entries => do
    let connective ← readConnective path entries
    match _found : entries.lookup "rules" with
    | none => flaw path (.missing .rules)
    | some (.array items) => return ⟨connective, ← readEntries path 0 items⟩
    | some _ => flaw path .rulesNotArray
  | _ => flaw path .groupNotObject
termination_by 2 * sizeOf v
decreasing_by
  have := sizeOf_lookup _found
  simp at this ⊢
  omega

/-- The entry at `path`: a group or a comparison. -/
def readEntry (path : Path) (v : Value) : Except RuleError Rule :=
  if v.hasRules then do return (← readGroup path v).toRule
  else do return leaf (← readLeaf path v)
termination_by 2 * sizeOf v + 1

/-- The entries of the group at `path` from the one with index `index` on. -/
def readEntries (path : Path) (index : Nat) (items : List Value) : Except RuleError (List Rule) :=
  match items with
  | [] => .ok []
  | v :: rest => do
    let rule ← readEntry (path ++ [index]) v
    let rules ← readEntries path (index + 1) rest
    return rule :: rules
termination_by 2 * sizeOf items

end

end Rule

namespace RuleGroup

/-- The group that a value is. -/
def ofValue (v : Value) : Except RuleError RuleGroup := Rule.readGroup [] v

/-- The group that a JSON text is. -/
def ofJson (text : String) : Except RuleError RuleGroup :=
  match Json.read text with
  | .error fault => .error (.json fault)
  | .ok v => ofValue v

end RuleGroup

end Criteria
