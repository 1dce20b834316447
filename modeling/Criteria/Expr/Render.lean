import Criteria.Expr.Basic
import Criteria.Expr.Function
import Criteria.Value.Text

/-!
# The source text of expressions

Every operation is written with parentheses, strings between double quotes and
operators in one spelling, so that the text says all of the tree. A call is written
the way its function prescribes.
-/

namespace Criteria.Expr

mutual

def render (functions : List Function) : Expr → Except ExprError String
  | const v => .ok v.source
  | name n => .ok n
  | array items => do
    return "[" ++ String.intercalate ", " (← renderAll functions items) ++ "]"
  | hash entries => do
    return "\x7b" ++ String.intercalate ", " (← renderEntries functions entries) ++ "\x7d"
  | unary op e => do return "(" ++ op.symbol ++ (← render functions e) ++ ")"
  | binary op l r => do
    let left ← render functions l
    let right ← render functions r
    return "(" ++ left ++ " " ++ op.symbol ++ " " ++ right ++ ")"
  | logical op operands => do
    return "(" ++
      String.intercalate (" " ++ op.symbol ++ " ") (← renderAll functions operands) ++ ")"
  | conditional c yes no => do
    let c ← render functions c
    let yes ← render functions yes
    let no ← render functions no
    return "(" ++ c ++ " ? " ++ yes ++ " : " ++ no ++ ")"
  | call function arguments =>
    match Function.find? functions function with
    | none => .error (.undefinedFunction function)
    | some f => do return f.render (← renderAll functions arguments)
  | access target (const (.string member)) .property => do
    return (← render functions target) ++ "." ++ member
  | access target key _ => do
    let target ← render functions target
    let key ← render functions key
    return target ++ "[" ++ key ++ "]"

def renderAll (functions : List Function) : List Expr → Except ExprError (List String)
  | [] => .ok []
  | e :: es => do
    let s ← render functions e
    let ss ← renderAll functions es
    return s :: ss

def renderEntries (functions : List Function) :
    List (String × Expr) → Except ExprError (List String)
  | [] => .ok []
  | (k, e) :: rest => do
    let s ← render functions e
    let ss ← renderEntries functions rest
    return (quote k ++ ": " ++ s) :: ss

end

section Ok

variable {functions : List Function} {e : Expr} {s : String} {ss : List String}

theorem renderAll_cons {es : List Expr} (h : render functions e = .ok s)
    (hs : renderAll functions es = .ok ss) : renderAll functions (e :: es) = .ok (s :: ss) := by
  rw [renderAll, h, hs]
  rfl

theorem renderEntries_cons {k : String} {es : List (String × Expr)}
    (h : render functions e = .ok s) (hs : renderEntries functions es = .ok ss) :
    renderEntries functions ((k, e) :: es) = .ok ((quote k ++ ": " ++ s) :: ss) := by
  rw [renderEntries, h, hs]
  rfl

/-- Whatever the key is, only an access with a dot is written with one. -/
theorem render_index {key : Expr} {sk : String} (h : render functions e = .ok s)
    (hk : render functions key = .ok sk) :
    render functions (.access e key .index) = .ok (s ++ "[" ++ sk ++ "]") := by
  rw [render, h, hk]
  · rfl
  · simp

end Ok

end Criteria.Expr
