import Criteria.Proofs.Expr.Operand
import Criteria.Rule.Compile

/-!
# Rules as trees of expressions

The expression that a tree of rules stands for, without the detour through text. Which
fields and values have a text that is read as this expression again is said by
`Leaf.Readable`; custom operators are never readable, so that their expression does not
matter.
-/

namespace Criteria

namespace LiteralStyle

/-- A value that is written as what it is. -/
def typedExpr : Value → Expr
  | .number n => .ofNumeral n.source.toList
  | v => .const v

/-- The value of a comparison. -/
def literal (style : LiteralStyle) (v : Value) : Expr :=
  match style with
  | quoted => .const (.string (v.text?.getD ""))
  | typed => typedExpr v

/-- An item of a list. -/
def item (style : LiteralStyle) (v : Value) : Expr :=
  match style, v with
  | quoted, .number n => .ofNumeral n.toNumeric.text.toList
  | quoted, v => .const v
  | typed, v => typedExpr v

/-- The items that are read as values again: a bare text is only read as a number. -/
def takesItem (style : LiteralStyle) (v : Value) : Bool :=
  match style, v with
  | quoted, .number _ => true
  | quoted, _ => false
  | typed, v => v.isScalar

def list (style : LiteralStyle) (v : Value) : Expr :=
  match v with
  | .array items => .array (items.map style.item)
  | v => .const v

end LiteralStyle

def Connective.op : Connective → BinaryOp
  | .and => .and
  | .or => .or

theorem Connective.isLogical_op (c : Connective) : c.op.isLogical = true := by
  cases c <;> rfl

theorem Connective.symbol_op (c : Connective) : c.op.symbol = c.sign := by
  cases c <;> rfl

namespace Expr

/-- What is collected along a tree, from left to right, is collected from the conditions of a
chain one by one. -/
theorem flatMap_joinAll {α : Type} {f : Expr → List α} (hnull : f (.const .null) = [])
    (hbinary : ∀ op l r, f (.binary op l r) = f l ++ f r)
    (hlogical : ∀ op es, f (.logical op es) = es.flatMap f) (op : BinaryOp) (es : List Expr) :
    f (joinAll op es) = es.flatMap f := by
  have hjoin (l r : Expr) : f (join op l r) = f l ++ f r := by
    have hpair : f (.logical op [l, r]) = f l ++ f r := by simp [hlogical]
    unfold join chain
    split
    · split
      · split
        · simp only [hlogical, List.flatMap_append, List.flatMap_singleton]
        · exact hpair
      · exact hpair
    · exact hbinary op l r
  have hfold (es : List Expr) (e : Expr) : f (es.foldl (join op) e) = f e ++ es.flatMap f := by
    induction es generalizing e with
    | nil => simp
    | cons e' es ih => rw [List.foldl_cons, ih, hjoin, List.flatMap_cons, List.append_assoc]
  cases es with
  | nil => exact hnull
  | cons e es => exact hfold es e

end Expr

namespace Leaf

def expr (style : LiteralStyle) (l : Leaf) : Expr :=
  let field : Expr := .name l.field
  let literal := style.literal l.value
  match l.op with
  | .equal => .binary .equal field literal
  | .notEqual => .binary .notEqual field literal
  | .less => .binary .less field literal
  | .lessOrEqual => .binary .lessOrEqual field literal
  | .greater => .binary .greater field literal
  | .greaterOrEqual => .binary .greaterOrEqual field literal
  | .member => .binary .member field (style.list l.value)
  | .notMember => .binary .notMember field (style.list l.value)
  | .beginsWith => .call "str_starts_with" [field, literal]
  | .notBeginsWith => .unary .not (.call "str_starts_with" [field, literal])
  | .contains => .call "str_contains" [field, literal]
  | .notContains => .unary .not (.call "str_contains" [field, literal])
  | .endsWith => .call "str_ends_with" [field, literal]
  | .notEndsWith => .unary .not (.call "str_ends_with" [field, literal])
  | .isEmpty => .call "empty" [field]
  | .isNotEmpty => .unary .not (.call "empty" [field])
  | .isNull => .binary .identical field (.const .null)
  | .isNotNull => .binary .notIdentical field (.const .null)
  | .custom _ => field

end Leaf

namespace Rule

mutual

def expr (style : LiteralStyle) : Rule → Expr
  | leaf l => l.expr style
  | group c rules => .joinAll c.op (exprs style rules)

def exprs (style : LiteralStyle) : List Rule → List Expr
  | [] => []
  | r :: rs => expr style r :: exprs style rs

end

/-- A tree with at most `n` levels of groups, none of them empty, whose comparisons all
satisfy `P`. -/
inductive Nested (P : Leaf → Prop) : Nat → Rule → Prop
  | leaf {n : Nat} {l : Leaf} : P l → Nested P n (.leaf l)
  | group {n : Nat} {c : Connective} {rules : List Rule} : rules ≠ [] →
      (∀ r ∈ rules, Nested P n r) → Nested P (n + 1) (.group c rules)

theorem Nested.imp {P Q : Leaf → Prop} (hPQ : ∀ l, P l → Q l) {n : Nat} {r : Rule}
    (h : Nested P n r) : Nested Q n r := by
  induction h with
  | leaf h => exact .leaf (hPQ _ h)
  | group hne _ ih => exact .group hne ih

end Rule

namespace RuleGroup

def expr (style : LiteralStyle) (g : RuleGroup) : Expr := g.toRule.expr style

/-- At most `n` levels of groups inside the outermost one, which is a level of its own. -/
def Nested (P : Leaf → Prop) (n : Nat) (g : RuleGroup) : Prop := g.toRule.Nested P (n + 1)

end RuleGroup

/-- A field that is read as one name, which is its own text and no constant. -/
structure PlainField (s : String) : Prop where
  lexemes : ∃ text, Token.ofText s = .ok text ∧ text.tokens.map Token.lexeme = [.name s]
  notConstant : Expr.constantWord? s = none

theorem PlainField.isReference {s : String} (h : PlainField s) : Expr.IsReference s := by
  obtain ⟨text, hscan, htext⟩ := h.lexemes
  have hvalid := (Lexed.of_scan hscan).valid
  rw [htext] at hvalid
  exact ⟨hvalid (.name s) (List.mem_singleton.mpr rfl), h.notConstant⟩

theorem plainField_of_isReference {s : String} (h : Expr.IsReference s) : PlainField s := by
  have hlexed : Lexed s.toList [.name s] := by
    simpa using Lexed.word (h.isName.spells (r := []) rfl) .nil
  exact ⟨hlexed.scan_eq 0, h.notConstant⟩

/-- A comparison whose text is read as its expression. -/
structure Leaf.Readable (style : LiteralStyle) (l : Leaf) : Prop where
  field : PlainField l.field
  builtIn : l.op ∈ RuleOp.builtIn
  list : l.op.isList = true → ∃ items, l.value = .array items ∧
    ∀ v ∈ items, style.takesItem v = true
  scalar : l.op.isList = false → l.op.ignoresValue = false → l.value.isScalar = true

end Criteria
