import Criteria.Expr.Apply
import Criteria.Expr.Basic
import Criteria.Expr.Function

/-!
# Evaluation

The value of an expression under variables. Operands are evaluated from left to right
and the first error ends the evaluation. Conditions stop at the operand that decides;
`??` goes on to its right operand where the left one is null, an undefined variable or
a member that cannot be looked up.
-/

namespace Criteria.Expr

/-- The member of a value under a key. A missing member is null. -/
def member (target key : Value) (kind : AccessKind) : Except ExprError Value :=
  let refused := .error (.notIndexable target.kind key.label)
  match target, kind with
  | .object entries, _ =>
    match key.text? with
    | some k => .ok ((entries.lookup k).getD .null)
    | none => refused
  | .array items, .index =>
    match key.numeric? with
    | some (.int i _) => .ok (if i < 0 then .null else items[i.toNat]?.getD .null)
    | _ => refused
  | _, _ => refused

/-- The value of a left operand that `??` keeps, or nothing where it goes on. -/
def kept? : Except ExprError Value → Option (Except ExprError Value)
  | .ok .null => none
  | .error (.undefinedVariable _) => none
  | .error (.notIndexable _ _) => none
  | result => some result

mutual

def eval (functions : List Function) (vars : Record) : Expr → Except ExprError Value
  | const v => .ok v
  | name n =>
    match vars.lookup n with
    | some v => .ok v
    | none => .error (.undefinedVariable n)
  | array items => do return .array (← evalAll functions vars items)
  | hash entries => do return .object (← evalEntries functions vars [] entries)
  | unary op e => do op.apply (← eval functions vars e)
  | binary .or l r => do
    if (← eval functions vars l).truthy then return .bool true
    else return .bool (← eval functions vars r).truthy
  | binary .and l r => do
    if (← eval functions vars l).truthy then return .bool (← eval functions vars r).truthy
    else return .bool false
  | binary .coalesce l r =>
    match kept? (eval functions vars l) with
    | some result => result
    | none => eval functions vars r
  | binary op l r => do
    let a ← eval functions vars l
    let b ← eval functions vars r
    op.apply a b
  | logical op operands => do return .bool (← evalChain functions vars (op == .or) operands)
  | conditional c yes no => do
    if (← eval functions vars c).truthy then eval functions vars yes else eval functions vars no
  | call function arguments =>
    match Function.find? functions function with
    | none => .error (.undefinedFunction function)
    | some f => do f.call vars (← evalAll functions vars arguments)
  | access target key kind => do
    let v ← eval functions vars target
    let k ← eval functions vars key
    member v k kind

def evalAll (functions : List Function) (vars : Record) : List Expr → Except ExprError (List Value)
  | [] => .ok []
  | e :: es => do
    let v ← eval functions vars e
    let vs ← evalAll functions vars es
    return v :: vs

/-- The entries of a hash put into a record one by one. -/
def evalEntries (functions : List Function) (vars : Record) (done : Record) :
    List (String × Expr) → Except ExprError Record
  | [] => .ok done
  | (k, e) :: rest => do
    let v ← eval functions vars e
    evalEntries functions vars (done.insert k v) rest

/-- Whether some operand of a chain has the truth value `decisive`, which ends it; the
value of the chain is `decisive` then, else the opposite. -/
def evalChain (functions : List Function) (vars : Record) (decisive : Bool) :
    List Expr → Except ExprError Bool
  | [] => .ok !decisive
  | e :: es => do
    if (← eval functions vars e).truthy == decisive then return decisive
    else evalChain functions vars decisive es

end

section

variable {functions : List Function} {vars : Record}

theorem evalAll_single {e : Expr} {v : Value} (h : eval functions vars e = .ok v) :
    evalAll functions vars [e] = .ok [v] := by
  rw [evalAll, evalAll, h]
  rfl

/-- The operators that compare evaluate both of their operands. -/
theorem eval_binary {op : BinaryOp} (hop : op.precedence = 20) (l r : Expr) :
    eval functions vars (.binary op l r) = (do
      let a ← eval functions vars l
      let b ← eval functions vars r
      op.apply a b) := by
  cases op <;> first | exact absurd hop (by decide) | (rw [eval] <;> simp)

end

end Criteria.Expr
