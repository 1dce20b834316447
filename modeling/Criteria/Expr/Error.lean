import Criteria.Expr.Lexeme
import Criteria.Value.Basic

/-!
# Errors of expressions

What can be wrong with the text of an expression, and what can go wrong when it is
evaluated. Each error is a cause with its data; `message` has the wording.
-/

namespace Criteria

/-- Things that the grammar asks for at one place only. -/
inductive Requirement where
  | arrayComma
  | hashComma
  | argumentComma
  | keyColon
  | closingParen
  | closingIndex
  deriving DecidableEq, Repr

def Requirement.text : Requirement → String
  | arrayComma => "数组元素之间需要逗号"
  | hashComma => "哈希元素之间需要逗号"
  | argumentComma => "参数之间需要逗号"
  | keyColon => "哈希键后需要冒号"
  | closingParen => "括号未闭合"
  | closingIndex => "下标未闭合"

/-- The levels of nesting that an expression may have. -/
def maxNesting : Nat := 256

/-- A fault in the text of an expression. What is found is a lexeme or the end. -/
inductive Fault where
  | lexical (obstacle : Lexeme.Obstacle)
  | unexpected (found : Option Lexeme)
  | missing (requirement : Requirement) (found : Option Lexeme)
  | badKey (found : Option Lexeme)
  | missingMember
  | methodCall (name : String)
  | tooDeep
  deriving DecidableEq, Repr

namespace Fault

def foundText : Option Lexeme → String
  | some l => l.description
  | none => "表达式结尾"

def message : Fault → String
  | lexical .unclosedString => "字符串未闭合"
  | lexical (.unknownChar c) => "无法识别的字符 \"" ++ c.toString ++ "\""
  | unexpected found => "意外的" ++ foundText found
  | missing requirement found => requirement.text ++ "，实际为" ++ foundText found
  | badKey found => "哈希键必须是字符串、名称或整数，实际为" ++ foundText found
  | missingMember => "\".\" 之后需要属性名"
  | methodCall name => "不支持方法调用 \"" ++ name ++ "()\""
  | tooDeep => "嵌套超过 " ++ intText maxNesting ++ " 层"

end Fault

/-- Why a function refuses its arguments. -/
inductive BadArguments where
  | count (expected actual : Nat)
  | notScalar
  | rangeTooLarge (size : Nat)
  | other (text : String)
  deriving DecidableEq, Repr

/-- The elements that a range may have. -/
def maxRangeSize : Nat := 100000

namespace BadArguments

def message : BadArguments → String
  | count expected actual =>
    "需要 " ++ intText expected ++ " 个参数，实际 " ++ intText actual ++ " 个"
  | notScalar => "参数必须是标量值"
  | rangeTooLarge size =>
    "区间包含 " ++ intText size ++ " 个元素，超过上限 " ++ intText maxRangeSize
  | other text => text

end BadArguments

/-- What goes wrong with an expression. A text that is no pattern comes with what the
search says of it. -/
inductive ExprError where
  | fault (fault : Fault) (position : Nat) (source : String)
  | undefinedVariable (name : String)
  | undefinedFunction (name : String)
  | typeMismatch (operator : String) (left right : Value.Kind)
  | badArguments (function : String) (cause : BadArguments)
  | divisionByZero
  | badPattern {reason : String}
  | notIndexable (target : Value.Kind) (member : String)
  deriving DecidableEq, Repr

namespace ExprError

def message : ExprError → String
  | fault f position source =>
    "语法错误: " ++ f.message ++ "，位置 " ++ intText position ++ "，表达式 \"" ++ source ++ "\""
  | undefinedVariable name => "变量 \"" ++ name ++ "\" 未定义"
  | undefinedFunction name => "函数 \"" ++ name ++ "\" 不存在"
  | typeMismatch operator left right =>
    "类型不匹配: 无法对 " ++ left.name ++ " 和 " ++ right.name ++ " 执行 \"" ++ operator ++ "\""
  | badArguments function cause => "函数 " ++ function ++ " 参数无效: " ++ cause.message
  | divisionByZero => "除数不能为零"
  | @badPattern reason => "无效的正则表达式: " ++ reason
  | notIndexable target member =>
    "无法在 " ++ target.name ++ " 上访问成员 \"" ++ member ++ "\""

/-- Whether reading an expression can already give the error. -/
def isSyntax : ExprError → Bool
  | fault .. | undefinedFunction _ => true
  | _ => false

end ExprError

end Criteria
