import Criteria.Proofs.Rule.Meaning
import Criteria.Proofs.Rule.Text
import Criteria.Rule.Context

/-!
# The value of compiled rules

The expression of a faithful tree of rules has the value that the direct reading of the tree
gives, with the same errors. Together with the text of the tree this says what becomes of
rules when they are compiled to text, read again and evaluated.
-/

namespace Criteria

/-! ## The value of chains -/

@[simp] theorem ok_bind {ε α β : Type} (a : α) (f : α → Except ε β) :
    (Except.ok a >>= f) = f a :=
  rfl

@[simp] theorem error_bind {ε α β : Type} (e : ε) (f : α → Except ε β) :
    (Except.error e >>= f) = .error e :=
  rfl

namespace Expr

variable {functions : List Function} {vars : Record}

theorem evalChain_append (decisive : Bool) (xs ys : List Expr) :
    evalChain functions vars decisive (xs ++ ys) = (do
      if (← evalChain functions vars decisive xs) == decisive then return decisive
      else evalChain functions vars decisive ys) := by
  induction xs with
  | nil => cases decisive <;> rfl
  | cons x xs ih =>
    rw [List.cons_append, evalChain, evalChain, ih]
    cases eval functions vars x with
    | error e => rfl
    | ok v =>
      by_cases hv : v.truthy = decisive <;> simp [hv, pure, Except.pure]

/-- The operands of a chain are as good as the chain. -/
theorem evalChain_logical (op : BinaryOp) (operands es : List Expr) :
    evalChain functions vars (op == .or) (.logical op operands :: es) =
      evalChain functions vars (op == .or) (operands ++ es) := by
  rw [evalChain_append, evalChain, eval]
  cases evalChain functions vars (op == .or) operands <;> rfl

section

variable {op : BinaryOp} (hop : op.isLogical = true) (l r : Expr)

include hop

/-- Two joined conditions are a chain, which goes through both. -/
theorem join_eq_logical : ∃ operands, join op l r = .logical op operands ∧
    ∀ es, evalChain functions vars (op == .or) (operands ++ es) =
      evalChain functions vars (op == .or) (l :: r :: es) := by
  rw [join, if_pos hop]
  unfold chain
  split
  · next op' operands =>
    split
    · next heq =>
      subst heq
      refine ⟨_, rfl, fun es => ?_⟩
      rw [List.append_assoc, ← evalChain_logical]
      rfl
    · exact ⟨_, rfl, fun _ => rfl⟩
  · exact ⟨_, rfl, fun _ => rfl⟩

theorem eval_joinAll (es : List Expr) :
    eval functions vars (joinAll op (l :: r :: es)) =
      (evalChain functions vars (op == .or) (l :: r :: es)).map Value.bool := by
  obtain ⟨operands, hjoin, hchain⟩ := join_eq_logical hop l r
  rw [joinAll, List.foldl_cons, hjoin, foldl_join hop, eval, hchain]
  cases evalChain functions vars (op == .or) (l :: r :: es) <;> rfl

end

end Expr

namespace Rule

variable {functions : List Function} {vars : Record} {style : LiteralStyle}

theorem evalChain_exprs (c : Connective) {rules : List Rule}
    (h : ∀ r ∈ rules, (r.expr style).eval functions vars = (r.holds style vars).map Value.bool) :
    Expr.evalChain functions vars (c.op == .or) (exprs style rules) =
      holdsAll style vars c rules := by
  have hdecisive : (c.op == .or) = c.decisive := by cases c <;> rfl
  rw [hdecisive]
  induction rules with
  | nil => rfl
  | cons r rules ih =>
    obtain ⟨hr, hrules⟩ := List.forall_mem_cons.mp h
    rw [exprs, Expr.evalChain, holdsAll, hr, ih hrules]
    cases r.holds style vars <;> rfl

theorem eval_group (c : Connective) {rules : List Rule} (hne : rules ≠ [])
    (h : ∀ r ∈ rules, (r.expr style).eval functions vars = (r.holds style vars).map Value.bool) :
    ((Rule.group c rules).expr style).eval functions vars =
      (holdsAll style vars c rules).map Value.bool := by
  rw [← evalChain_exprs c h, expr]
  obtain ⟨r, rules, rfl⟩ := List.exists_cons_of_ne_nil hne
  cases rules with
  | nil =>
    have hr := h r (List.mem_singleton.mpr rfl)
    rw [exprs, exprs, Expr.joinAll, List.foldl_nil, Expr.evalChain, Expr.evalChain, hr]
    cases r.holds style vars with
    | error e => rfl
    | ok b => cases b <;> cases c <;> rfl
  | cons r' rules => exact Expr.eval_joinAll c.isLogical_op _ _ _

end Rule

/-! ## The value of literals -/

theorem operand?_ofInt {n : Int} (h : Fits n) : (Value.ofInt n).operand? = some (.int n h) := by
  have hrange : -2 ^ (63 : Nat) ≤ n ∧ n < 2 ^ (64 : Nat) := ⟨h.1, Int.lt_trans h.2 (by decide)⟩
  rw [Value.ofInt, dif_pos hrange, Value.operand?, Value.numeric?, Number.toNumeric, Numeric.ofInt,
    dif_pos h]
  all_goals simp

theorem negate_ofInt {n : Int} (h : Fits n) (h' : Fits (-n)) :
    UnaryOp.negate.apply (.ofInt n) = .ok (.ofInt (-n)) := by
  simp only [UnaryOp.apply, operand?_ofInt h, Numeric.ofInt, dif_pos h', Numeric.toValue]

theorem negate_ofFloat {x : Binary64} (hx : x.isFinite = true) :
    UnaryOp.negate.apply (.ofFloat x) = .ok (.ofFloat x.neg) := by
  simp only [Value.ofFloat, dif_pos hx, UnaryOp.apply, Value.operand?, Value.numeric?,
    Number.toNumeric, Numeric.toValue]

theorem ofFloat_eq {x : Binary64} (hx : x.isFinite = true) :
    Value.ofFloat x = .number (.float x hx) :=
  dif_pos hx

theorem ofInt_eq {n : Int} (lower : -2 ^ (63 : Nat) ≤ n) (upper : n < 2 ^ (64 : Nat)) :
    Value.ofInt n = .number (.int n lower upper) :=
  dif_pos ⟨lower, upper⟩

namespace Expr

variable {functions : List Function} {vars : Record}

theorem eval_signed (negative : Bool) {v w : Value}
    (h : UnaryOp.negate.apply v = .ok w) :
    (signed negative v).eval functions vars = .ok (if negative then w else v) := by
  cases negative with
  | false => rw [signed, if_neg (by decide), eval, if_neg (by decide)]
  | true => rw [signed, if_pos rfl, eval, eval, ok_bind, h, if_pos rfl]

theorem eval_signed_float {x : Binary64} (hx : x.isFinite = true) :
    (signed x.negative (.ofFloat x.magnitude)).eval functions vars =
      .ok (.number (.float x hx)) := by
  have hmagnitude : x.magnitude.isFinite = true := hx
  rw [eval_signed _ (negate_ofFloat hmagnitude), ← ofFloat_eq hx]
  obtain ⟨negative, rank, hrank⟩ := x
  cases negative <;> rfl

theorem eval_signed_int {n : Int} (hn : n.natAbs < 2 ^ (63 : Nat)) :
    (signed (decide (n < 0)) (.ofInt n.natAbs)).eval functions vars = .ok (.ofInt n) := by
  have hfits : Fits n.natAbs := ⟨by omega, by omega⟩
  have hneg : Fits (-(n.natAbs : Int)) := ⟨by omega, by omega⟩
  rw [eval_signed _ (negate_ofInt hfits hneg)]
  by_cases h : n < 0
  · rw [decide_eq_true h, if_pos rfl]
    congr 2
    omega
  · rw [decide_eq_false h, if_neg (by decide)]
    congr 2
    omega

/-- The value of the numeral of an integer. -/
theorem eval_intText {n : Int} (hn : n.natAbs < 2 ^ (63 : Nat)) :
    (ofNumeral (intText n).toList).eval functions vars = .ok (.ofInt n) := by
  have hfits : Fits n.natAbs := ⟨by omega, by omega⟩
  rw [intText, String.toList_ofList, ← Written.text_of_whole (Nat.toDigits 10 n.natAbs),
    ofNumeral_eq _ (Written.proper_toDigits _), Written.toNumeric_toDigits hfits]
  exact eval_signed_int hn

theorem eval_typedExpr {v : Value} (hv : LiteralStyle.typed.keeps v = true) :
    (LiteralStyle.typedExpr v).eval functions vars = .ok v := by
  cases v with
  | number n =>
    cases n with
    | int n lower upper =>
      rw [LiteralStyle.typedExpr, Number.source, eval_intText (of_decide_eq_true hv),
        ofInt_eq lower upper]
    | float x finite =>
      obtain ⟨w, hw, hnum, htext⟩ := Binary64.sourceText_written finite
      rw [LiteralStyle.typedExpr, Number.source, String.toList_ofList, htext, ofNumeral_eq _ hw,
        hnum]
      exact eval_signed_float finite
  | _ =>
    rw [LiteralStyle.typedExpr, eval]
    simp

theorem eval_literal {style : LiteralStyle} {v : Value} (hv : style.keeps v = true) :
    (style.literal v).eval functions vars = .ok (style.operand v) := by
  cases style with
  | quoted => rw [LiteralStyle.literal, LiteralStyle.operand, eval]
  | typed => exact eval_typedExpr hv

theorem eval_item {style : LiteralStyle} {v : Value} (hv : style.keepsItem v = true) :
    (style.item v).eval functions vars = .ok v := by
  cases style with
  | quoted =>
    cases v with
    | number n =>
      cases n with
      | int n lower upper =>
        have hsmall : n.natAbs < 2 ^ (63 : Nat) := of_decide_eq_true hv
        have hfits : Fits n := ⟨lower, by omega⟩
        rw [LiteralStyle.item, Number.toNumeric, Numeric.ofInt, dif_pos hfits,
          ← ofInt_eq lower upper]
        exact eval_intText hsmall
      | float x finite => cases hv
    | _ => cases hv
  | typed =>
    refine eval_typedExpr ?_
    cases v with
    | number n => cases n <;> exact hv
    | _ => exact hv

theorem evalAll_items {style : LiteralStyle} {vs : List Value}
    (hvs : ∀ v ∈ vs, style.keepsItem v = true) :
    evalAll functions vars (vs.map style.item) = .ok vs := by
  induction vs with
  | nil => rfl
  | cons v vs ih =>
    obtain ⟨hv, hvs⟩ := List.forall_mem_cons.mp hvs
    rw [List.map_cons, evalAll, eval_item hv, ih hvs]
    rfl

theorem eval_list {style : LiteralStyle} {vs : List Value}
    (hvs : ∀ v ∈ vs, style.keepsItem v = true) :
    (style.list (.array vs)).eval functions vars = .ok (.array vs) := by
  rw [LiteralStyle.list, eval, evalAll_items hvs]
  rfl

end Expr

/-! ## The value of comparisons -/

namespace Expr

variable {functions : List Function} {vars : Record}

/-- A comparison of a field with an operand that has a value. -/
theorem eval_compare {op : BinaryOp} (hop : op.precedence = 20) {e : Expr} {w : Value}
    (he : eval functions vars e = .ok w) (field : String) :
    eval functions vars (.binary op (.name field) e) =
      match vars.lookup field with
      | none => .error (.undefinedVariable field)
      | some v => op.apply v w := by
  rw [eval_binary hop, eval, he]
  cases vars.lookup field <;> rfl

theorem eval_call {f : Function} {name : String}
    (hf : Function.find? functions name = some f) {es : List Expr} {ws : List Value}
    (hes : evalAll functions vars es = .ok ws) (field : String) :
    eval functions vars (.call name (.name field :: es)) =
      match vars.lookup field with
      | none => .error (.undefinedVariable field)
      | some v => f.call vars (v :: ws) := by
  rw [eval, hf]
  simp only [evalAll, eval, hes]
  cases vars.lookup field <;> rfl

end Expr

section

variable {functions : List Function} {vars : Record} {field : String}
  {test : Value → Except ExprError Bool}

theorem eval_operator (op : BinaryOp) (hop : op.precedence = 20) {e : Expr} {w : Value}
    (he : e.eval functions vars = .ok w)
    (htest : ∀ v, op.apply v w = (test v).map Value.bool) :
    (Expr.binary op (.name field) e).eval functions vars =
      (onField vars field test).map Value.bool := by
  rw [Expr.eval_compare hop he, onField]
  cases vars.lookup field with
  | none => rfl
  | some v => exact htest v

theorem eval_predicate {f : Function} {name : String}
    (hf : Function.find? functions name = some f) {es : List Expr} {ws : List Value}
    (hes : Expr.evalAll functions vars es = .ok ws)
    (htest : ∀ v, f.call vars (v :: ws) = (test v).map Value.bool) :
    (Expr.call name (.name field :: es)).eval functions vars =
      (onField vars field test).map Value.bool := by
  rw [Expr.eval_call hf hes, onField]
  cases vars.lookup field with
  | none => rfl
  | some v => exact htest v

theorem eval_not {e : Expr}
    (h : e.eval functions vars = (onField vars field test).map Value.bool) :
    (Expr.unary .not e).eval functions vars =
      (onField vars field fun v => do return !(← test v)).map Value.bool := by
  rw [Expr.eval, h, onField, onField]
  cases vars.lookup field with
  | none => rfl
  | some v =>
    dsimp only
    cases test v <;> rfl

end

/-- The two ways to write a test whose outcome is computed from one step. -/
theorem bind_bool {α : Type} (x : Except ExprError α) (f : α → Bool) :
    (do return Value.bool (f (← x))) = (do return f (← x) : Except ExprError Bool).map Value.bool := by
  cases x <;> rfl

theorem isMember_bool (x : Except ExprError Bool) :
    (do return Value.bool (← x)) = x.map Value.bool := by
  cases x <;> rfl

theorem call_onTexts (name : String) (test : String → String → Bool) (vars : Record)
    (v w : Value) :
    (Predicate.onTexts name test).call vars [v, w] = (textTest name test v w).map Value.bool := by
  simp only [Predicate.onTexts, textTest]
  cases Predicate.textArgument name v with
  | error e => rfl
  | ok s => cases Predicate.textArgument name w <;> rfl

/-- The predicates of the language on the texts of field and value. -/
theorem eval_textTest {name : String} {test : String → String → Bool}
    (hf : Function.find? Predicate.language.functions name = some (Predicate.onTexts name test))
    {vars : Record} {field : String} {e : Expr} {w : Value}
    (he : e.eval Predicate.language.functions vars = .ok w) :
    (Expr.call name [.name field, e]).eval Predicate.language.functions vars =
      (onField vars field fun v => textTest name test v w).map Value.bool :=
  eval_predicate hf (Expr.evalAll_single he) fun _ => call_onTexts _ _ _ _ _

theorem Leaf.eval_expr {style : LiteralStyle} {l : Leaf} (h : l.Faithful style) (vars : Record) :
    (l.expr style).eval Predicate.language.functions vars =
      (l.holds style vars).map Value.bool := by
  obtain ⟨field, op, value⟩ := l
  obtain ⟨-, hop, hlist, hscalar⟩ := h
  have hnull : (Expr.const .null).eval Predicate.language.functions vars = .ok .null := by
    rw [Expr.eval]
  have hempty : (Expr.call "empty" [.name field]).eval Predicate.language.functions vars =
      (onField vars field fun v => .ok !v.truthy).map Value.bool :=
    eval_predicate (f := Predicate.isEmpty) rfl rfl fun _ => rfl
  cases op with
  | equal => exact eval_operator .equal rfl (Expr.eval_literal (hscalar rfl rfl)) fun _ => rfl
  | notEqual =>
    exact eval_operator .notEqual rfl (Expr.eval_literal (hscalar rfl rfl)) fun _ => rfl
  | less =>
    exact eval_operator .less rfl (Expr.eval_literal (hscalar rfl rfl)) fun _ => bind_bool _ _
  | lessOrEqual =>
    exact eval_operator .lessOrEqual rfl (Expr.eval_literal (hscalar rfl rfl))
      fun _ => bind_bool _ _
  | greater =>
    exact eval_operator .greater rfl (Expr.eval_literal (hscalar rfl rfl)) fun _ => bind_bool _ _
  | greaterOrEqual =>
    exact eval_operator .greaterOrEqual rfl (Expr.eval_literal (hscalar rfl rfl))
      fun _ => bind_bool _ _
  | member =>
    obtain ⟨items, hvalue, hitems⟩ := hlist rfl
    obtain rfl : value = .array items := hvalue
    exact eval_operator .member rfl (Expr.eval_list hitems) fun _ => isMember_bool _
  | notMember =>
    obtain ⟨items, hvalue, hitems⟩ := hlist rfl
    obtain rfl : value = .array items := hvalue
    exact eval_operator .notMember rfl (Expr.eval_list hitems) fun _ => bind_bool _ _
  | beginsWith => exact eval_textTest rfl (Expr.eval_literal (hscalar rfl rfl))
  | notBeginsWith => exact eval_not (eval_textTest rfl (Expr.eval_literal (hscalar rfl rfl)))
  | contains => exact eval_textTest rfl (Expr.eval_literal (hscalar rfl rfl))
  | notContains => exact eval_not (eval_textTest rfl (Expr.eval_literal (hscalar rfl rfl)))
  | endsWith => exact eval_textTest rfl (Expr.eval_literal (hscalar rfl rfl))
  | notEndsWith => exact eval_not (eval_textTest rfl (Expr.eval_literal (hscalar rfl rfl)))
  | isEmpty => exact hempty
  | isNotEmpty =>
    have htruthy : (fun v : Value => (do return !(← .ok !v.truthy) : Except ExprError Bool)) =
        fun v => .ok v.truthy := by
      funext v
      simp [pure, Except.pure]
    have hnot := eval_not hempty
    rwa [htruthy] at hnot
  | isNull => exact eval_operator .identical rfl hnull fun _ => rfl
  | isNotNull => exact eval_operator .notIdentical rfl hnull fun _ => rfl
  | custom name => simp [RuleOp.builtIn] at hop

/-! ## The value of trees -/

theorem Rule.eval_expr {style : LiteralStyle} {n : Nat} {r : Rule}
    (h : r.Nested (Leaf.Faithful style) n) (vars : Record) :
    (r.expr style).eval Predicate.language.functions vars =
      (r.holds style vars).map Value.bool := by
  induction h with
  | leaf h =>
    rw [expr, holds]
    exact Leaf.eval_expr h vars
  | group hne _ ih =>
    rw [holds]
    exact eval_group _ hne ih

theorem Predicate.isKnown_language :
    ∀ f ∈ Predicate.all, Function.isKnown Predicate.language.functions f.name = true := by
  decide

namespace RuleGroup

/-- A fresh language reads the text, since nothing is kept yet. -/
theorem evaluate_of_ofText {s : String} {e : Expr} (vars : Record)
    (h : Expr.ofText (Function.isKnown Predicate.language.functions) s = .ok e) :
    (Predicate.language.evaluate s vars).1 = e.eval Predicate.language.functions vars := by
  have hfresh : Predicate.language.cache.get? s = none := rfl
  simp only [Language.evaluate, Language.withParsed, Language.parse, hfresh, h]

/-- A faithful group of rules compiles, and its text has the value that the direct reading
of the group has. -/
theorem evaluate_compile {o : CompileOptions} (ho : o.escapes = true) {g : RuleGroup}
    (h : g.Nested (Leaf.Faithful o.style) 63) (vars : Record) :
    ∃ s, g.compile o = .ok s ∧
      (Predicate.language.evaluate s vars).1 = (g.holds o.style vars).map Value.bool := by
  obtain ⟨s, hs, hread⟩ :=
    ofText_compile ho Predicate.isKnown_language (h.imp fun _ hl => hl.readable)
  refine ⟨s, hs, ?_⟩
  rw [evaluate_of_ofText vars hread]
  exact Rule.eval_expr h vars

/-- Grown up, and either without a quote in the name or of an unusual age. -/
def sample : RuleGroup :=
  ⟨.and, [.leaf ⟨"age", .greaterOrEqual, .ofInt 18⟩,
    .group .or [.leaf ⟨"name", .notContains, .string "\""⟩,
      .leaf ⟨"age", .member, .array [.ofInt (-1), .null]⟩]]⟩

theorem nested_sample : sample.Nested (Leaf.Faithful .typed) 63 := by
  have hage : PlainField "age" :=
    plainField_of_isReference ⟨isName_of_check rfl rfl rfl rfl rfl, rfl⟩
  have hname : PlainField "name" :=
    plainField_of_isReference ⟨isName_of_check rfl rfl rfl rfl rfl, rfl⟩
  have hadult : Leaf.Faithful .typed ⟨"age", .greaterOrEqual, .ofInt 18⟩ :=
    ⟨hage, by decide, nofun, by decide⟩
  have hquote : Leaf.Faithful .typed ⟨"name", .notContains, .string "\""⟩ :=
    ⟨hname, by decide, nofun, by decide⟩
  have hlist : Leaf.Faithful .typed ⟨"age", .member, .array [.ofInt (-1), .null]⟩ :=
    ⟨hage, by decide, fun _ => ⟨_, rfl, by decide⟩, by decide⟩
  refine .group (List.cons_ne_nil _ _) (List.forall_mem_cons.mpr ⟨.leaf hadult, ?_⟩)
  refine List.forall_mem_singleton.mpr (.group (List.cons_ne_nil _ _) ?_)
  exact List.forall_mem_cons.mpr ⟨.leaf hquote, List.forall_mem_singleton.mpr (.leaf hlist)⟩

theorem evaluate_compile_sample :
    ∃ s, sample.compile ⟨.typed, true⟩ = .ok s ∧
      (Predicate.language.evaluate s ContextSource.sample).1 = .ok (.bool true) := by
  have ho : CompileOptions.escapes ⟨.typed, true⟩ = true := rfl
  obtain ⟨s, hs, hvalue⟩ := evaluate_compile ho nested_sample ContextSource.sample
  exact ⟨s, hs, hvalue.trans rfl⟩

end RuleGroup

end Criteria
