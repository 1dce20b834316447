import Criteria.Proofs.Rule.Tree
import Criteria.Rule.Predicate

/-!
# The meaning of rules

A tree of rules can be read directly, without an expression: a group goes through its rules
from left to right and stops at the first one that decides, or at the first error, and a
comparison looks its field up and applies the test of its operator. The expression that a
tree compiles to has exactly this value in the language of predicates.

Integers of 63 bits and their negatives are written as numerals that denote them. Larger
ones are read as floating numbers in the typed style, so that they are left out there.
-/

namespace Criteria

/-! ## Direct reading -/

namespace LiteralStyle

/-- The value that the field is compared with. -/
def operand (style : LiteralStyle) (v : Value) : Value :=
  match style with
  | quoted => .string (v.text?.getD "")
  | typed => v

/-- The scalars that are compared as what they are in the style. -/
def keeps (style : LiteralStyle) (v : Value) : Bool :=
  match style, v with
  | typed, .number (.int n _ _) => n.natAbs < 2 ^ (63 : Nat)
  | _, v => v.isScalar

/-- The items that are compared as what they are in the style. -/
def keepsItem (style : LiteralStyle) (v : Value) : Bool :=
  match style, v with
  | _, .number (.int n _ _) => n.natAbs < 2 ^ (63 : Nat)
  | quoted, _ => false
  | typed, v => v.isScalar

end LiteralStyle

/-- A test on the texts of two scalars. -/
def textTest (function : String) (test : String → String → Bool) (v w : Value) :
    Except ExprError Bool := do
  return test (← Predicate.textArgument function v) (← Predicate.textArgument function w)

/-- What an operator says of the value of a field and the value of a rule. A custom operator
has no meaning of its own and is taken to hold of nothing. -/
def RuleOp.test (op : RuleOp) (v w : Value) : Except ExprError Bool :=
  match op with
  | .equal => .ok (v.looseEq w)
  | .notEqual => .ok !(v.looseEq w)
  | .less => return (← BinaryOp.compareAs "<" v w) == .lt
  | .lessOrEqual => return (← BinaryOp.compareAs "<=" v w) != .gt
  | .greater => return (← BinaryOp.compareAs ">" v w) == .gt
  | .greaterOrEqual => return (← BinaryOp.compareAs ">=" v w) != .lt
  | .member => BinaryOp.isMember "in" v w
  | .notMember => return !(← BinaryOp.isMember "not in" v w)
  | .beginsWith => textTest "str_starts_with" Text.startsWith v w
  | .notBeginsWith => return !(← textTest "str_starts_with" Text.startsWith v w)
  | .contains => textTest "str_contains" Text.contains v w
  | .notContains => return !(← textTest "str_contains" Text.contains v w)
  | .endsWith => textTest "str_ends_with" Text.endsWith v w
  | .notEndsWith => return !(← textTest "str_ends_with" Text.endsWith v w)
  | .isEmpty => .ok !v.truthy
  | .isNotEmpty => .ok v.truthy
  | .isNull => .ok (v.strictEq .null)
  | .isNotNull => .ok !(v.strictEq .null)
  | .custom _ => .ok false

/-- The outcome of a test on the value of a field, which may be missing. -/
def onField (vars : Record) (field : String) (test : Value → Except ExprError Bool) :
    Except ExprError Bool :=
  match vars.lookup field with
  | none => .error (.undefinedVariable field)
  | some v => test v

/-- Whether a comparison holds of a record. -/
def Leaf.holds (style : LiteralStyle) (vars : Record) (l : Leaf) : Except ExprError Bool :=
  onField vars l.field fun v =>
    l.op.test v (if l.op.isList then l.value else style.operand l.value)

/-- The truth value of one rule that decides a group. -/
def Connective.decisive : Connective → Bool
  | .and => false
  | .or => true

namespace Rule

mutual

def holds (style : LiteralStyle) (vars : Record) : Rule → Except ExprError Bool
  | leaf l => l.holds style vars
  | group c rules => holdsAll style vars c rules

/-- Whether a group holds: the first rule that decides it ends it. -/
def holdsAll (style : LiteralStyle) (vars : Record) (c : Connective) :
    List Rule → Except ExprError Bool
  | [] => .ok !c.decisive
  | r :: rs => do
    if (← holds style vars r) == c.decisive then return c.decisive
    else holdsAll style vars c rs

end

end Rule

def RuleGroup.holds (style : LiteralStyle) (vars : Record) (g : RuleGroup) :
    Except ExprError Bool :=
  g.toRule.holds style vars

/-- A readable comparison whose value the language has as such. -/
structure Leaf.Faithful (style : LiteralStyle) (l : Leaf) : Prop where
  field : PlainField l.field
  builtIn : l.op ∈ RuleOp.builtIn
  list : l.op.isList = true → ∃ items, l.value = .array items ∧
    ∀ v ∈ items, style.keepsItem v = true
  scalar : l.op.isList = false → l.op.ignoresValue = false → style.keeps l.value = true

theorem Leaf.Faithful.readable {style : LiteralStyle} {l : Leaf} (h : l.Faithful style) :
    l.Readable style where
  field := h.field
  builtIn := h.builtIn
  list hop := by
    obtain ⟨items, hvalue, hitems⟩ := h.list hop
    refine ⟨items, hvalue, fun v hv => ?_⟩
    have hkeeps := hitems v hv
    cases style with
    | quoted =>
      cases v with
      | number n => rfl
      | _ => cases hkeeps
    | typed =>
      cases v with
      | number n => rfl
      | _ => exact hkeeps
  scalar hlist hvalue := by
    have hkeeps := h.scalar hlist hvalue
    unfold LiteralStyle.keeps at hkeeps
    split at hkeeps
    · next hv => rw [hv]; rfl
    · exact hkeeps

end Criteria
