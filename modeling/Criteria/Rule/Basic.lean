import Criteria.Json.Printer
import Criteria.Rule.Operator

/-!
# Rules

A rule is a comparison of a field with a value, or a group of rules under a
connective. What is compiled is always a group. A group can be written as a value,
which has the members of an object in the order of their names, and as JSON text, which
has them in the order in which they are read.
-/

namespace Criteria

structure Leaf where
  field : String
  op : RuleOp
  value : Value
  deriving DecidableEq, Repr

inductive Rule where
  | leaf (leaf : Leaf)
  | group (connective : Connective) (rules : List Rule)
  deriving Repr

structure RuleGroup where
  connective : Connective
  rules : List Rule
  deriving Repr

namespace Leaf

def toValue (l : Leaf) : Value :=
  .object [("field", .string l.field), ("operator", .string l.op.name), ("value", l.value)]

def json (l : Leaf) : String :=
  Json.object [("field", Json.string l.field), ("operator", Json.string l.op.name),
    ("value", Json.print l.value)]

end Leaf

namespace Rule

mutual

def decEq (a b : Rule) : Decidable (a = b) :=
  match a, b with
  | .leaf a, .leaf b => if h : a = b then isTrue (h ▸ rfl) else isFalse (by simpa using h)
  | .group c xs, .group d ys =>
    match decEqAll xs ys with
    | isTrue hs => if h : c = d then isTrue (by rw [h, hs]) else isFalse (by simp [h])
    | isFalse hs => isFalse (by simp [hs])
  | .leaf _, .group _ _ | .group _ _, .leaf _ => isFalse nofun

def decEqAll (a b : List Rule) : Decidable (a = b) :=
  match a, b with
  | [], [] => isTrue rfl
  | x :: xs, y :: ys =>
    match decEq x y, decEqAll xs ys with
    | isTrue h, isTrue hs => isTrue (by rw [h, hs])
    | isFalse h, _ => isFalse (by simp [h])
    | _, isFalse hs => isFalse (by simp [hs])
  | [], _ :: _ | _ :: _, [] => isFalse nofun

end

instance : DecidableEq Rule := decEq

mutual

/-- The fields that a rule compares, in the order in which they stand. -/
def fields : Rule → List String
  | leaf l => [l.field]
  | group _ rules => fieldsOfAll rules

def fieldsOfAll : List Rule → List String
  | [] => []
  | r :: rs => fields r ++ fieldsOfAll rs

end

mutual

def toValue : Rule → Value
  | leaf l => l.toValue
  | group c rules => .object [("condition", .string c.name), ("rules", .array (toValues rules))]

def toValues : List Rule → List Value
  | [] => []
  | r :: rs => toValue r :: toValues rs

end

mutual

def json : Rule → String
  | leaf l => l.json
  | group c rules =>
    Json.object [("condition", Json.string c.name), ("rules", Json.array (jsonOfAll rules))]

def jsonOfAll : List Rule → List String
  | [] => []
  | r :: rs => json r :: jsonOfAll rs

end

end Rule

namespace RuleGroup

deriving instance DecidableEq for RuleGroup

/-- The group as one rule among others. -/
def toRule (g : RuleGroup) : Rule := .group g.connective g.rules

/-- The fields that a group refers to, each once. -/
def fields (g : RuleGroup) : List String := g.toRule.fields.eraseDups

def toValue (g : RuleGroup) : Value := g.toRule.toValue

def json (g : RuleGroup) : String := g.toRule.json

end RuleGroup

end Criteria
