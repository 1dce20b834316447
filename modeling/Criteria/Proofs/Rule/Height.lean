import Criteria.Proofs.Expr.Nesting
import Criteria.Proofs.Rule.Evaluation

/-!
# The height of compiled rules

However many rules a group has, they are the operands of one chain, so that each level of
groups adds one edge to the tree that is read. A comparison has three edges at most. Groups
that stand first in a group with the same connective go up in its chain; nothing is gained
from this here, since the bound is for all trees.
-/

namespace Criteria

namespace Expr

mutual

/-- The edges on the longest way down through a tree. -/
@[simp] def height : Expr → Nat
  | const _ | name _ => 0
  | array items => interior (heights items)
  | hash entries => interior (heightsOfEntries entries)
  | unary _ e => interior [height e]
  | binary _ l r => interior [height l, height r]
  | logical _ operands => interior (heights operands)
  | conditional c yes no => interior [height c, height yes, height no]
  | call _ arguments => interior (heights arguments)
  | access target key _ => interior [height target, height key]

@[simp] def heights : List Expr → List Nat
  | [] => []
  | e :: es => height e :: heights es

@[simp] def heightsOfEntries : List (String × Expr) → List Nat
  | [] => []
  | (_, e) :: es => height e :: heightsOfEntries es

end

variable {op : BinaryOp} {k : Nat} {l r : Expr} {es : List Expr}

theorem interior_heights_le : interior (heights es) ≤ k + 1 ↔ ∀ e ∈ es, e.height ≤ k := by
  induction es with
  | nil => simp
  | cons e es ih =>
    rw [heights, interior_cons, Nat.max_le, ih, List.forall_mem_cons, Nat.add_le_add_iff_right]

/-- What a chain of `op` may begin with whose operands are at most `k` high: an operand, or
a chain of some of them. -/
inductive Begins (op : BinaryOp) (k : Nat) : Expr → Prop
  | operand {e : Expr} : e.height ≤ k → Begins op k e
  | chain {es : List Expr} : (∀ e ∈ es, e.height ≤ k) → Begins op k (.logical op es)

theorem Begins.height_le {e : Expr} (h : Begins op k e) : e.height ≤ k + 1 := by
  cases h with
  | operand he => exact Nat.le_succ_of_le he
  | chain hes => exact interior_heights_le.mpr hes

theorem Begins.join (hop : op.isLogical = true) (hl : Begins op k l) (hr : r.height ≤ k) :
    Begins op k (join op l r) := by
  rw [Expr.join, if_pos hop]
  cases hl with
  | chain hes =>
    rw [Expr.chain, if_pos rfl]
    exact .chain (List.forall_mem_append.mpr ⟨hes, List.forall_mem_singleton.mpr hr⟩)
  | operand hl =>
    have hpair : Begins op k (.logical op [l, r]) :=
      .chain (List.forall_mem_cons.mpr ⟨hl, List.forall_mem_singleton.mpr hr⟩)
    unfold Expr.chain
    split
    · next op' operands =>
      split
      · have hoperands := interior_heights_le.mp (Nat.le_succ_of_le hl)
        exact .chain (List.forall_mem_append.mpr ⟨hoperands, List.forall_mem_singleton.mpr hr⟩)
      · exact hpair
    · exact hpair

/-- However many conditions are joined, they add one edge to the highest of them. -/
theorem height_joinAll_le (hop : op.isLogical = true) (h : ∀ e ∈ es, e.height ≤ k) :
    (joinAll op es).height ≤ k + 1 := by
  have hfold (es : List Expr) (h : ∀ e ∈ es, e.height ≤ k) (e : Expr) (he : Begins op k e) :
      Begins op k (es.foldl (Expr.join op) e) := by
    induction es generalizing e with
    | nil => exact he
    | cons e' es ih =>
      obtain ⟨he', hes⟩ := List.forall_mem_cons.mp h
      exact ih hes _ (he.join hop he')
  cases es with
  | nil => exact Nat.zero_le _
  | cons e es =>
    obtain ⟨he, hes⟩ := List.forall_mem_cons.mp h
    exact (hfold es hes e (.operand he)).height_le

theorem height_ofNumeral_le (cs : List Char) : (ofNumeral cs).height ≤ 1 := by
  simp only [ofNumeral, signed]
  split <;> simp

end Expr

/-! ## Comparisons -/

namespace LiteralStyle

variable (style : LiteralStyle) (v : Value)

theorem height_typedExpr_le : (typedExpr v).height ≤ 1 := by
  cases v with
  | number n => exact Expr.height_ofNumeral_le _
  | _ => exact Nat.zero_le 1

theorem height_literal_le : (style.literal v).height ≤ 1 := by
  cases style with
  | quoted => exact Nat.zero_le 1
  | typed => exact height_typedExpr_le v

theorem height_item_le : (style.item v).height ≤ 1 := by
  cases style with
  | quoted =>
    cases v with
    | number n => exact Expr.height_ofNumeral_le _
    | _ => exact Nat.zero_le 1
  | typed => exact height_typedExpr_le v

theorem height_list_le : (style.list v).height ≤ 2 := by
  cases v with
  | array items =>
    refine Expr.interior_heights_le.mpr fun e he => ?_
    obtain ⟨item, -, rfl⟩ := List.mem_map.mp he
    exact style.height_item_le item
  | _ => exact Nat.zero_le 2

end LiteralStyle

/-- The longest way is through the operator, a list or a negation, and a sign. -/
theorem Leaf.height_expr_le (style : LiteralStyle) (l : Leaf) : (l.expr style).height ≤ 3 := by
  obtain ⟨field, op, value⟩ := l
  have hliteral := style.height_literal_le value
  have hlist := style.height_list_le value
  cases op <;>
    simp only [expr, Expr.height, Expr.heights, Expr.interior_cons, Expr.interior_nil] <;> omega

/-! ## Trees -/

namespace Rule

mutual

/-- The levels of groups in a tree. -/
def groupLevels : Rule → Nat
  | leaf _ => 0
  | group _ rules => groupLevelsOfAll rules + 1

/-- The levels of groups in the tree that has most of them. -/
def groupLevelsOfAll : List Rule → Nat
  | [] => 0
  | r :: rs => max (groupLevels r) (groupLevelsOfAll rs)

end

variable (style : LiteralStyle)

mutual

theorem height_expr_le (r : Rule) : (r.expr style).height ≤ r.groupLevels + 3 := by
  cases r with
  | leaf l =>
    rw [expr, groupLevels]
    exact l.height_expr_le style
  | group c rules =>
    rw [expr, groupLevels, Nat.add_right_comm]
    exact Expr.height_joinAll_le c.isLogical_op (height_exprs_le rules)

theorem height_exprs_le (rules : List Rule) :
    ∀ e ∈ exprs style rules, e.height ≤ groupLevelsOfAll rules + 3 := by
  cases rules with
  | nil => exact List.forall_mem_nil _
  | cons r rules =>
    have hr := height_expr_le r
    have hrules := height_exprs_le rules
    rw [exprs, groupLevelsOfAll]
    exact List.forall_mem_cons.mpr
      ⟨by omega, fun e he => Nat.le_trans (hrules e he) (by omega)⟩

end

/-- A list with a negative number takes all three edges. -/
example :
    let r : Rule := .group .and
      [.leaf ⟨"a", .member, .array [.ofInt (-1)]⟩, .leaf ⟨"b", .isNull, .null⟩]
    (r.expr .quoted).height = r.groupLevels + 3 := by
  decide

end Rule

namespace RuleGroup

/-- The levels of groups, the outermost one included. -/
def groupLevels (g : RuleGroup) : Nat := g.toRule.groupLevels

variable {known : String → Bool}

/-- A readable group of rules compiles to a text that is read, and the height of its tree
depends on the levels of the group alone. -/
theorem height_ofText_compile {o : CompileOptions} (ho : o.escapes = true)
    (hknown : ∀ f ∈ Predicate.all, known f.name = true) {g : RuleGroup}
    (h : g.Nested (Leaf.Readable o.style) 63) :
    ∃ s e, g.compile o = .ok s ∧ Expr.ofText known s = .ok e ∧ e.height ≤ g.groupLevels + 3 := by
  obtain ⟨s, hs, hread⟩ := ofText_compile ho hknown h
  exact ⟨s, _, hs, hread, Rule.height_expr_le o.style g.toRule⟩

theorem height_ofText_compile_sample :
    ∃ s e, sample.compile ⟨.typed, true⟩ = .ok s ∧
      Expr.ofText (Function.isKnown Predicate.all) s = .ok e ∧ e.height ≤ 5 := by
  have ho : CompileOptions.escapes ⟨.typed, true⟩ = true := rfl
  exact height_ofText_compile ho (by decide) (nested_sample.imp fun _ hl => hl.readable)

end RuleGroup

end Criteria
