import Criteria.Rule.Basic
import Criteria.Rule.Error

/-!
# Rules as expressions

A group of rules is written as an expression: the rules in their order, joined by the
sign of the connective, an inner group between parentheses. A comparison is written by
an operator or by the call of a predicate.

Values are written in one of two styles. The quoted style puts the text of every single
value between quotes and leaves the items of lists bare; the typed style writes each
value as what it is.
-/

namespace Criteria

inductive LiteralStyle where
  | quoted
  | typed
  deriving DecidableEq, Repr

def LiteralStyle.ofName? (s : String) : Option LiteralStyle :=
  match s with
  | "quoted" => some quoted
  | "typed" => some typed
  | _ => none

structure CompileOptions where
  style : LiteralStyle
  /-- Whether quotes and backslashes inside quotes are escaped. -/
  escapes : Bool
  deriving DecidableEq, Repr

namespace CompileOptions

def standard : CompileOptions := ⟨.quoted, true⟩

/-- A backslash before each quote and each backslash. -/
def escape (c : Char) : List Char :=
  if c = '\\' ∨ c = '"' then ['\\', c] else [c]

/-- A text between quotes. -/
def quote (o : CompileOptions) (s : String) : String :=
  let inner := if o.escapes then s.toList.flatMap escape else s.toList
  String.ofList ('"' :: (inner ++ ['"']))

/-- A scalar written as what it is. -/
def typed? (o : CompileOptions) : Value → Option String
  | .null => some "null"
  | .bool b => some (if b then "true" else "false")
  | .number n => some n.source
  | .string s => some (o.quote s)
  | .array _ | .object _ => none

/-- The value of a comparison, if it is a scalar. -/
def literal? (o : CompileOptions) (v : Value) : Option String :=
  match o.style with
  | .quoted => v.text?.map o.quote
  | .typed => o.typed? v

/-- An item of a list, if it is a scalar. -/
def item? (o : CompileOptions) (v : Value) : Option String :=
  match o.style with
  | .quoted => v.text?
  | .typed => o.typed? v

end CompileOptions

namespace Leaf

/-- The value of a rule as a literal. -/
def literal (o : CompileOptions) (path : Path) (l : Leaf) : Except RuleError String :=
  match o.literal? l.value with
  | some s => .ok s
  | none => .error (.malformed (.rule path (.needsScalar l.op)))

/-- The items of the value of a rule. -/
def items (o : CompileOptions) (path : Path) (l : Leaf) : Except RuleError String :=
  match l.value with
  | .array vs =>
    match vs.mapM o.item? with
    | some texts => .ok (String.intercalate ", " texts)
    | none => .error (.malformed (.rule path .itemNotScalar))
  | _ => .error (.malformed (.rule path (.needsList l.op)))

/-- A comparison by an operator between field and value. -/
def byOperator (o : CompileOptions) (path : Path) (l : Leaf) (sign : String) :
    Except RuleError String := do
  return l.field ++ " " ++ sign ++ " " ++ (← l.literal o path)

/-- A comparison with the items of a list. -/
def byList (o : CompileOptions) (path : Path) (l : Leaf) (sign : String) :
    Except RuleError String := do
  return l.field ++ " " ++ sign ++ " [" ++ (← l.items o path) ++ "]"

/-- A comparison by the call of a predicate with field and value. -/
def byCall (o : CompileOptions) (path : Path) (l : Leaf) (function : String) :
    Except RuleError String := do
  return function ++ "(" ++ l.field ++ ", " ++ (← l.literal o path) ++ ")"

def compile (o : CompileOptions) (path : Path) (l : Leaf) : Except RuleError String :=
  match l.op with
  | .member => l.byList o path "in"
  | .notMember => l.byList o path "not in"
  | .equal => l.byOperator o path "=="
  | .notEqual => l.byOperator o path "!="
  | .less => l.byOperator o path "<"
  | .lessOrEqual => l.byOperator o path "<="
  | .greater => l.byOperator o path ">"
  | .greaterOrEqual => l.byOperator o path ">="
  | .beginsWith => l.byCall o path "str_starts_with"
  | .notBeginsWith => l.byCall o path "!str_starts_with"
  | .contains => l.byCall o path "str_contains"
  | .notContains => l.byCall o path "!str_contains"
  | .endsWith => l.byCall o path "str_ends_with"
  | .notEndsWith => l.byCall o path "!str_ends_with"
  | .isNull => .ok (l.field ++ " === null")
  | .isNotNull => .ok (l.field ++ " !== null")
  | .isEmpty => .ok ("empty(" ++ l.field ++ ")")
  | .isNotEmpty => .ok ("!empty(" ++ l.field ++ ")")
  | .custom name => l.byOperator o path name

end Leaf

namespace Rule

mutual

/-- The text of a rule inside a group: a group stands between parentheses. -/
def compile (o : CompileOptions) (path : Path) : Rule → Except RuleError String
  | leaf l => l.compile o path
  | group c rules => do return "(" ++ (← compileGroup o path c rules) ++ ")"

def compileGroup (o : CompileOptions) (path : Path) (c : Connective) :
    List Rule → Except RuleError String
  | [] => .error (.malformed (.rule path .emptyGroup))
  | r :: rs => do
    let parts ← compileAll o path 0 (r :: rs)
    return String.intercalate (" " ++ c.sign ++ " ") parts

/-- The texts of the rules of a group from the one with index `index` on. -/
def compileAll (o : CompileOptions) (path : Path) (index : Nat) :
    List Rule → Except RuleError (List String)
  | [] => .ok []
  | r :: rs => do
    let part ← compile o (path ++ [index]) r
    let parts ← compileAll o path (index + 1) rs
    return part :: parts

end

end Rule

/-- The expression that a group of rules is. -/
def RuleGroup.compile (o : CompileOptions) (g : RuleGroup) : Except RuleError String :=
  Rule.compileGroup o [] g.connective g.rules

end Criteria
