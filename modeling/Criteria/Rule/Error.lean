import Criteria.Expr.Error
import Criteria.Json.Numeral
import Criteria.Json.Printer
import Criteria.Rule.Operator

/-!
# Errors of rules

What can be wrong with rules and with what they are applied to. A flaw in the tree
comes with its place: the indices to follow from the root through the lists of rules.
-/

namespace Criteria

/-- The members that a group or a leaf must have. -/
inductive RuleMember where
  | condition
  | rules
  | field
  | operator
  | value
  deriving DecidableEq, Repr

def RuleMember.name : RuleMember → String
  | condition => "condition"
  | rules => "rules"
  | field => "field"
  | operator => "operator"
  | value => "value"

/-- What can be wrong at one place of a tree of rules. -/
inductive Flaw where
  | groupNotObject
  | leafNotObject
  | missing (m : RuleMember)
  | notString (m : RuleMember)
  | rulesNotArray
  | unknownCondition (text : String)
  | emptyField
  | emptyGroup
  | needsScalar (op : RuleOp)
  | needsList (op : RuleOp)
  | itemNotScalar
  deriving DecidableEq, Repr

def Flaw.text : Flaw → String
  | groupNotObject => "规则组必须是 JSON 对象"
  | leafNotObject => "规则必须是 JSON 对象"
  | missing m => "缺少 " ++ m.name
  | notString m => m.name ++ " 必须是字符串"
  | rulesNotArray => "rules 必须是数组"
  | unknownCondition text => Connective.refusal text
  | emptyField => "field 不能为空"
  | emptyGroup => "规则组不能为空"
  | needsScalar op => op.name ++ " 操作符需要标量值"
  | needsList op => op.name ++ " 操作符需要数组值"
  | itemNotScalar => "列表元素必须是标量值"

/-- A place in a tree: the indices on the way from the root. -/
abbrev Path := List Nat

/-- A place as it is written, step by step. -/
def Path.text (p : Path) : String :=
  if p.isEmpty then "root"
  else String.intercalate "." (p.map fun (i : Nat) => "rules[" ++ intText i ++ "]")

/-- Something malformed: a tree of rules, or a context that is no object. -/
inductive Malformed where
  | rule (path : Path) (flaw : Flaw)
  | context (value : Value)
  deriving DecidableEq, Repr

namespace Malformed

def place : Malformed → String
  | rule path _ => Path.text path
  | context _ => "context"

def reason : Malformed → String
  | rule _ flaw => flaw.text
  | context value => "上下文必须是 JSON 对象，实际为 " ++ Json.print value

end Malformed

inductive RuleError where
  | invalidPayload
  | malformed (what : Malformed)
  | evaluation (cause : ExprError)
  | contextUnavailable (key : String)
  | json (fault : Json.Fault)
  deriving DecidableEq, Repr

namespace RuleError

/-- The wording of an error. -/
def message : RuleError → String
  | invalidPayload => "Invalid rules payload."
  | malformed what => "规则结构错误 (" ++ what.place ++ "): " ++ what.reason
  | evaluation cause => "表达式求值失败: " ++ cause.message
  | contextUnavailable key => "上下文不存在: " ++ key
  | json fault => "JSON 序列化错误: " ++ fault.text

end RuleError

end Criteria
