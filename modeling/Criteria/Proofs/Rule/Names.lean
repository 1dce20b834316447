import Criteria.Proofs.Language.History
import Criteria.Proofs.Rule.Evaluation

/-!
# The names in compiled rules

The fields of a tree of rules are the names of its expression, in the same order: a
comparison puts its field into the expression and no other name, whatever its value is. So
the two lists are the same also when they are collected apart, one from the tree and the
other from what the text of the tree is read as.
-/

namespace Criteria

namespace Expr

theorem namesOfAll_eq_flatMap (es : List Expr) : namesOfAll es = es.flatMap names := by
  induction es with
  | nil => rfl
  | cons e es ih => rw [namesOfAll, ih, List.flatMap_cons]

theorem names_joinAll (op : BinaryOp) (es : List Expr) :
    (joinAll op es).names = es.flatMap names := by
  refine flatMap_joinAll rfl (fun op l r => ?_) (fun op es => ?_) op es
  · rw [names]
  · rw [names, namesOfAll_eq_flatMap]

theorem names_ofNumeral (cs : List Char) : (ofNumeral cs).names = [] := by
  simp only [ofNumeral, signed]
  split <;> rfl

end Expr

/-! ## Comparisons -/

namespace LiteralStyle

variable (style : LiteralStyle) (v : Value)

theorem names_typedExpr : (typedExpr v).names = [] := by
  cases v with
  | number n => exact Expr.names_ofNumeral _
  | _ => rfl

theorem names_literal : (style.literal v).names = [] := by
  cases style with
  | quoted => rfl
  | typed => exact names_typedExpr v

theorem names_item : (style.item v).names = [] := by
  cases style with
  | quoted =>
    cases v with
    | number n => exact Expr.names_ofNumeral _
    | _ => rfl
  | typed => exact names_typedExpr v

theorem names_list : (style.list v).names = [] := by
  cases v with
  | array items =>
    rw [list, Expr.names, Expr.namesOfAll_eq_flatMap, List.flatMap_eq_nil_iff]
    intro e he
    obtain ⟨item, -, rfl⟩ := List.mem_map.mp he
    exact style.names_item item
  | _ => rfl

end LiteralStyle

/-- Values have no names in them. -/
theorem Leaf.names_expr (style : LiteralStyle) (l : Leaf) : (l.expr style).names = [l.field] := by
  obtain ⟨field, op, value⟩ := l
  have hliteral := style.names_literal value
  have hlist := style.names_list value
  cases op <;> simp [expr, Expr.names, Expr.namesOfAll, hliteral, hlist]

/-! ## Trees -/

namespace Rule

variable (style : LiteralStyle)

mutual

theorem names_expr (r : Rule) : (r.expr style).names = r.fields := by
  cases r with
  | leaf l => exact l.names_expr style
  | group c rules => rw [expr, fields, Expr.names_joinAll, names_exprs rules]

theorem names_exprs (rules : List Rule) :
    (exprs style rules).flatMap Expr.names = fieldsOfAll rules := by
  cases rules with
  | nil => rfl
  | cons r rules =>
    rw [exprs, fieldsOfAll, List.flatMap_cons, names_expr r, names_exprs rules]

end

end Rule

namespace RuleGroup

/-- A readable group of rules compiles to a text which a language that knows the predicates
reads at any time, and the variables of what it reads are the fields of the group. -/
theorem variables_parse_compile {o : CompileOptions} (ho : o.escapes = true)
    {start l : Language} (hempty : start.cache.size = 0) (hl : start.Becomes l)
    (hknown : ∀ f ∈ Predicate.all, l.hasFunction f.name = true) {g : RuleGroup}
    (h : g.Nested (Leaf.Readable o.style) 63) :
    ∃ s parsed, g.compile o = .ok s ∧ (l.parse s).1 = .ok parsed ∧
      parsed.root.variables = g.fields := by
  have hfaithful : l.Faithful := hl.faithful (.of_size_eq_zero hempty)
  have hisKnown : ∀ f ∈ Predicate.all, Function.isKnown l.functions f.name = true := hknown
  obtain ⟨s, hs, hread⟩ := ofText_compile ho hisKnown h
  refine ⟨s, ⟨s, g.expr o.style⟩, hs, ?_, ?_⟩
  · rw [Language.parse_eq_read hfaithful, Language.read, hread]
    rfl
  · exact congrArg List.eraseDups (Rule.names_expr o.style g.toRule)

/-- The field that two comparisons of the sample share is listed once. -/
theorem variables_parse_compile_sample :
    ∃ s parsed, sample.compile ⟨.typed, true⟩ = .ok s ∧
      (Predicate.language.parse s).1 = .ok parsed ∧
      parsed.root.variables = ["age", "name"] := by
  have ho : CompileOptions.escapes ⟨.typed, true⟩ = true := rfl
  have hempty : Predicate.language.cache.size = 0 := rfl
  have hread := nested_sample.imp fun _ hl => hl.readable
  obtain ⟨s, parsed, hs, hparse, hvariables⟩ :=
    variables_parse_compile ho hempty .refl Predicate.isKnown_language hread
  exact ⟨s, parsed, hs, hparse, hvariables.trans (by decide)⟩

end RuleGroup

end Criteria
