import Criteria.Expr.Operator
import Criteria.Value.Basic

/-!
# Expressions

The tree of an expression. Conditions joined by one logical operator are one node
with all of them, so that a long chain does not deepen the tree; `Expr.join` builds
such chains from the left.

`variables` lists the names that an expression refers to, each once and in the order
of its first occurrence.
-/

namespace Criteria

/-- The two ways to name a member of a value. -/
inductive AccessKind where
  | property
  | index
  deriving DecidableEq, Repr

inductive Expr where
  | const (value : Value)
  | name (name : String)
  | array (items : List Expr)
  | hash (entries : List (String × Expr))
  | unary (op : UnaryOp) (operand : Expr)
  | binary (op : BinaryOp) (left right : Expr)
  | logical (op : BinaryOp) (operands : List Expr)
  | conditional (condition yes no : Expr)
  | call (function : String) (arguments : List Expr)
  | access (target key : Expr) (kind : AccessKind)
  deriving Repr

namespace Expr

/-- A logical chain with one operand more: the chain on the left grows if it has the
same operator. -/
def chain (op : BinaryOp) (left right : Expr) : Expr :=
  match left with
  | logical op' operands =>
    if op' = op then logical op (operands ++ [right]) else logical op [left, right]
  | _ => logical op [left, right]

/-- Two operands joined by an operator, as a chain if the operator is logical. -/
def join (op : BinaryOp) (left right : Expr) : Expr :=
  if op.isLogical then chain op left right else binary op left right

mutual

/-- The names in an expression, in the order in which they stand. -/
def names : Expr → List String
  | const _ => []
  | name n => [n]
  | array items => namesOfAll items
  | hash entries => namesOfEntries entries
  | unary _ e => names e
  | binary _ l r => names l ++ names r
  | logical _ operands => namesOfAll operands
  | conditional c y n => names c ++ names y ++ names n
  | call _ arguments => namesOfAll arguments
  | access target key _ => names target ++ names key

def namesOfAll : List Expr → List String
  | [] => []
  | e :: es => names e ++ namesOfAll es

def namesOfEntries : List (String × Expr) → List String
  | [] => []
  | (_, e) :: rest => names e ++ namesOfEntries rest

end

/-- The names that an expression refers to, without repetition. -/
def «variables» (e : Expr) : List String :=
  e.names.eraseDups

end Expr

end Criteria
