import Criteria.Text.Basic

/-!
# Operators of rules

The eighteen comparisons that a rule can make, and a further form for a comparison
with a name of its own, which is written into the expression as it stands. Groups of
rules are joined by one of two connectives, in any letter case.
-/

namespace Criteria

inductive RuleOp where
  | equal
  | notEqual
  | less
  | lessOrEqual
  | greater
  | greaterOrEqual
  | member
  | notMember
  | beginsWith
  | notBeginsWith
  | contains
  | notContains
  | endsWith
  | notEndsWith
  | isEmpty
  | isNotEmpty
  | isNull
  | isNotNull
  | custom (name : String)
  deriving DecidableEq, Repr

namespace RuleOp

def name : RuleOp → String
  | equal => "equal"
  | notEqual => "not_equal"
  | less => "less"
  | lessOrEqual => "less_or_equal"
  | greater => "greater"
  | greaterOrEqual => "greater_or_equal"
  | member => "in"
  | notMember => "not_in"
  | beginsWith => "begins_with"
  | notBeginsWith => "not_begins_with"
  | contains => "contains"
  | notContains => "not_contains"
  | endsWith => "ends_with"
  | notEndsWith => "not_ends_with"
  | isEmpty => "is_empty"
  | isNotEmpty => "is_not_empty"
  | isNull => "is_null"
  | isNotNull => "is_not_null"
  | custom name => name

/-- The eighteen operators with a meaning of their own. -/
def builtIn : List RuleOp :=
  [equal, notEqual, less, lessOrEqual, greater, greaterOrEqual, member, notMember, beginsWith,
  notBeginsWith, contains, notContains, endsWith, notEndsWith, isEmpty, isNotEmpty, isNull,
  isNotNull]

/-- The operator of a name; names without a meaning of their own give custom operators. -/
def ofName (s : String) : RuleOp :=
  (builtIn.find? (·.name == s)).getD (custom s)

/-- Whether the value of a rule is a list. -/
def isList : RuleOp → Bool
  | member | notMember => true
  | _ => false

/-- Whether the value of a rule does not matter. -/
def ignoresValue : RuleOp → Bool
  | isEmpty | isNotEmpty | isNull | isNotNull => true
  | _ => false

def isCustom : RuleOp → Bool
  | custom _ => true
  | _ => false

end RuleOp

inductive Connective where
  | and
  | or
  deriving DecidableEq, Repr

namespace Connective

def name : Connective → String
  | and => "AND"
  | or => "OR"

/-- The sign that joins conditions in an expression. -/
def sign : Connective → String
  | and => "&&"
  | or => "||"

def ofName? (s : String) : Option Connective :=
  match Text.toAsciiUpper s with
  | "AND" => some and
  | "OR" => some or
  | _ => none

/-- What is said of a name that is none. -/
def refusal (s : String) : String :=
  "逻辑条件必须是 AND 或 OR，实际为 \"" ++ s ++ "\""

end Connective

end Criteria
