import Criteria.Proofs.Rule.Text

/-!
# The shape of compiled rules

Blanking takes the contents of strings away and leaves everything else. Trees of rules that
are equal when blanked differ in their string values only; their expressions, read back from
the compiled texts, are then equal when blanked too, and the string constants in them are the
strings of the rules, in the same order. No value can change the structure of an expression.
-/

namespace Criteria

namespace Value

/-- A value without its text, if it is a string. -/
def blankItem : Value → Value
  | .string _ => .string ""
  | v => v

/-- A value without the strings in it: itself, or the items of a list. -/
def blank : Value → Value
  | .array items => .array (items.map blankItem)
  | v => v.blankItem

/-- The string that a value is. -/
def strings : Value → List String
  | .string s => [s]
  | _ => []

end Value

/-! ## Expressions -/

namespace Expr

mutual

/-- An expression without the contents of its constant strings. -/
@[simp] def blank : Expr → Expr
  | const v => const v.blank
  | name n => name n
  | array items => array (blankAll items)
  | hash entries => hash (blankEntries entries)
  | unary op e => unary op (blank e)
  | binary op l r => binary op (blank l) (blank r)
  | logical op operands => logical op (blankAll operands)
  | conditional c yes no => conditional (blank c) (blank yes) (blank no)
  | call function arguments => call function (blankAll arguments)
  | access target key kind => access (blank target) (blank key) kind

@[simp] def blankAll : List Expr → List Expr
  | [] => []
  | e :: es => blank e :: blankAll es

@[simp] def blankEntries : List (String × Expr) → List (String × Expr)
  | [] => []
  | (k, e) :: rest => (k, blank e) :: blankEntries rest

end

mutual

/-- The constant strings of an expression, in the order in which they stand. -/
@[simp] def strings : Expr → List String
  | const v => v.strings
  | name _ => []
  | array items => stringsOfAll items
  | hash entries => stringsOfEntries entries
  | unary _ e => strings e
  | binary _ l r => strings l ++ strings r
  | logical _ operands => stringsOfAll operands
  | conditional c yes no => strings c ++ strings yes ++ strings no
  | call _ arguments => stringsOfAll arguments
  | access target key _ => strings target ++ strings key

@[simp] def stringsOfAll : List Expr → List String
  | [] => []
  | e :: es => strings e ++ stringsOfAll es

@[simp] def stringsOfEntries : List (String × Expr) → List String
  | [] => []
  | (_, e) :: rest => strings e ++ stringsOfEntries rest

end

theorem blankAll_eq_map (es : List Expr) : blankAll es = es.map blank := by
  induction es with
  | nil => rfl
  | cons e es ih => rw [blankAll, ih, List.map_cons]

theorem stringsOfAll_eq_flatMap (es : List Expr) : stringsOfAll es = es.flatMap strings := by
  induction es with
  | nil => rfl
  | cons e es ih => rw [stringsOfAll, ih, List.flatMap_cons]

theorem blank_join (op : BinaryOp) (l r : Expr) :
    (join op l r).blank = join op l.blank r.blank := by
  unfold join
  split
  · cases l with
    | logical op' operands =>
      simp only [chain, blank]
      split <;> simp [blankAll_eq_map]
    | _ => simp [chain]
  · rw [blank]

theorem blank_joinAll (op : BinaryOp) (es : List Expr) :
    (joinAll op es).blank = joinAll op (es.map blank) := by
  have hfold (es : List Expr) (e : Expr) :
      (es.foldl (join op) e).blank = (es.map blank).foldl (join op) e.blank := by
    induction es generalizing e with
    | nil => rfl
    | cons e' es ih => rw [List.foldl_cons, ih, blank_join, List.map_cons, List.foldl_cons]
  cases es with
  | nil => rfl
  | cons e es => exact hfold es e

theorem strings_joinAll (op : BinaryOp) (es : List Expr) :
    (joinAll op es).strings = es.flatMap strings := by
  refine flatMap_joinAll rfl (fun op l r => ?_) (fun op es => ?_) op es
  · rw [strings]
  · rw [strings, stringsOfAll_eq_flatMap]

theorem strings_ofNumeral (cs : List Char) : (ofNumeral cs).strings = [] := by
  have hnumber (n : Numeric) : n.toValue.strings = [] := by
    cases n <;> simp only [Numeric.toValue, Value.ofInt, Value.ofFloat] <;> split <;> rfl
  simp only [ofNumeral, signed]
  split <;> exact hnumber _

end Expr

/-! ## Comparisons -/

namespace LiteralStyle

variable (style : LiteralStyle)

theorem blank_typedExpr (v : Value) : (typedExpr v.blank).blank = (typedExpr v).blank := by
  cases v with
  | array items =>
    have hidem (v : Value) : v.blankItem.blankItem = v.blankItem := by cases v <;> rfl
    simp [Value.blank, typedExpr, hidem]
  | _ => rfl

theorem blank_literal (v : Value) : (style.literal v.blank).blank = (style.literal v).blank := by
  cases style with
  | quoted => rfl
  | typed => exact blank_typedExpr v

theorem blank_item (v : Value) : (style.item v.blankItem).blank = (style.item v).blank := by
  cases style <;> cases v <;> rfl

theorem blank_list (v : Value) : (style.list v.blank).blank = (style.list v).blank := by
  cases v with
  | array items =>
    simp [Value.blank, list, Expr.blankAll_eq_map, blank_item]
  | _ => rfl

/-- The strings in the constants of the value of a comparison. -/
def literalStrings (v : Value) : List String :=
  match style with
  | quoted => [v.text?.getD ""]
  | typed => v.strings

/-- The strings in the constants of a list. -/
def listStrings (v : Value) : List String :=
  match v with
  | .array items => items.flatMap Value.strings
  | v => v.strings

theorem strings_typedExpr (v : Value) : (typedExpr v).strings = v.strings := by
  cases v with
  | number n => exact Expr.strings_ofNumeral _
  | _ => rfl

theorem strings_literal (v : Value) : (style.literal v).strings = style.literalStrings v := by
  cases style with
  | quoted => rfl
  | typed => exact strings_typedExpr v

theorem strings_item (v : Value) : (style.item v).strings = v.strings := by
  cases style with
  | quoted =>
    cases v with
    | number n => exact Expr.strings_ofNumeral _
    | _ => rfl
  | typed => exact strings_typedExpr v

theorem strings_list (v : Value) : (style.list v).strings = listStrings v := by
  cases v with
  | array items =>
    simp [list, Expr.stringsOfAll_eq_flatMap, listStrings, List.flatMap_map, strings_item]
  | _ => rfl

end LiteralStyle

namespace Leaf

/-- A comparison without the strings in its value. -/
def blank (l : Leaf) : Leaf := { l with value := l.value.blank }

/-- The strings that a comparison puts into an expression. -/
def strings (style : LiteralStyle) (l : Leaf) : List String :=
  if l.op.ignoresValue || l.op.isCustom then []
  else if l.op.isList then LiteralStyle.listStrings l.value
  else style.literalStrings l.value

theorem blank_expr_blank (style : LiteralStyle) (l : Leaf) :
    (l.blank.expr style).blank = (l.expr style).blank := by
  obtain ⟨field, op, value⟩ := l
  cases op <;>
    simp only [expr, Leaf.blank, Expr.blank, Expr.blankAll, LiteralStyle.blank_literal,
      LiteralStyle.blank_list]

theorem strings_expr (style : LiteralStyle) (l : Leaf) :
    (l.expr style).strings = l.strings style := by
  obtain ⟨field, op, value⟩ := l
  cases op <;>
    simp [expr, strings, RuleOp.ignoresValue, RuleOp.isCustom, RuleOp.isList,
      LiteralStyle.strings_literal, LiteralStyle.strings_list, Value.strings]

end Leaf

/-! ## Trees -/

namespace Rule

mutual

/-- A tree without the strings in the values of its comparisons. -/
@[simp] def blank : Rule → Rule
  | leaf l => leaf l.blank
  | group c rules => group c (blankAll rules)

@[simp] def blankAll : List Rule → List Rule
  | [] => []
  | r :: rs => blank r :: blankAll rs

end

mutual

/-- The strings that a tree puts into an expression, in the order in which they stand. -/
@[simp] def strings (style : LiteralStyle) : Rule → List String
  | leaf l => l.strings style
  | group _ rules => stringsOfAll style rules

@[simp] def stringsOfAll (style : LiteralStyle) : List Rule → List String
  | [] => []
  | r :: rs => strings style r ++ stringsOfAll style rs

end

theorem blankAll_eq_map (rules : List Rule) : blankAll rules = rules.map blank := by
  induction rules with
  | nil => rfl
  | cons r rules ih => rw [blankAll, ih, List.map_cons]

variable (style : LiteralStyle)

mutual

theorem blank_expr_blank (r : Rule) : (r.blank.expr style).blank = (r.expr style).blank := by
  cases r with
  | leaf l => exact l.blank_expr_blank style
  | group c rules =>
    rw [blank, expr, expr, Expr.blank_joinAll, Expr.blank_joinAll, blank_exprs_blankAll rules]

theorem blank_exprs_blankAll (rules : List Rule) :
    (exprs style (blankAll rules)).map Expr.blank = (exprs style rules).map Expr.blank := by
  cases rules with
  | nil => rfl
  | cons r rules =>
    rw [blankAll, exprs, exprs, List.map_cons, List.map_cons, blank_expr_blank r,
      blank_exprs_blankAll rules]

end

mutual

theorem strings_expr (r : Rule) : (r.expr style).strings = r.strings style := by
  cases r with
  | leaf l => exact l.strings_expr style
  | group c rules =>
    rw [expr, strings, Expr.strings_joinAll, strings_exprs rules]

theorem strings_exprs (rules : List Rule) :
    (exprs style rules).flatMap Expr.strings = stringsOfAll style rules := by
  cases rules with
  | nil => rfl
  | cons r rules =>
    rw [exprs, stringsOfAll, List.flatMap_cons, strings_expr r, strings_exprs rules]

end

end Rule

/-! ## Trees that differ in strings -/

namespace LiteralStyle

theorem takesItem_blankItem (style : LiteralStyle) (v : Value) :
    style.takesItem v.blankItem = style.takesItem v := by
  cases style <;> cases v <;> rfl

end LiteralStyle

theorem Value.isScalar_blank (v : Value) : v.blank.isScalar = v.isScalar := by
  cases v <;> rfl

theorem Value.blank_eq_array {v : Value} {items : List Value} (h : v.blank = .array items) :
    ∃ items', v = .array items' ∧ items'.map blankItem = items := by
  cases v with
  | array items' => exact ⟨items', rfl, by simpa [blank] using h⟩
  | _ => cases h

/-- Being readable is no matter of the strings. -/
theorem Leaf.Readable.of_blank {style : LiteralStyle} {l l' : Leaf} (h : l.Readable style)
    (hblank : l'.blank = l.blank) : l'.Readable style := by
  obtain ⟨field, op, value⟩ := l
  obtain ⟨field', op', value'⟩ := l'
  simp only [Leaf.blank, Leaf.mk.injEq] at hblank
  obtain ⟨rfl, rfl, hvalue⟩ := hblank
  refine ⟨h.field, h.builtIn, fun hlist => ?_, fun hlist hignores => ?_⟩
  · obtain ⟨items, rfl, hitems⟩ := h.list hlist
    obtain ⟨items', rfl, hmap⟩ := Value.blank_eq_array hvalue
    refine ⟨items', rfl, fun v' hv' => ?_⟩
    have hmem : v'.blankItem ∈ items.map Value.blankItem := hmap ▸ List.mem_map_of_mem hv'
    obtain ⟨v, hv, heq⟩ := List.mem_map.mp hmem
    rw [← style.takesItem_blankItem, ← heq, style.takesItem_blankItem]
    exact hitems v hv
  · have hscalar := h.scalar hlist hignores
    rwa [← Value.isScalar_blank, ← hvalue, Value.isScalar_blank] at hscalar

theorem Rule.Nested.of_blank {style : LiteralStyle} {n : Nat} {r : Rule}
    (h : r.Nested (Leaf.Readable style) n) {r' : Rule} (hblank : r'.blank = r.blank) :
    r'.Nested (Leaf.Readable style) n := by
  induction h generalizing r' with
  | leaf h =>
    cases r' with
    | leaf l' => exact .leaf (h.of_blank (by simpa [blank] using hblank))
    | group c rules' => simp [blank] at hblank
  | @group n c rules hne _ ih =>
    cases r' with
    | leaf l' => simp [blank] at hblank
    | group c' rules' =>
      simp only [blank, blankAll_eq_map, Rule.group.injEq] at hblank
      refine .group ?_ fun r' hr' => ?_
      · rintro rfl
        exact hne (List.map_eq_nil_iff.mp hblank.2.symm)
      · have hmem : r'.blank ∈ rules.map blank := hblank.2 ▸ List.mem_map_of_mem hr'
        obtain ⟨r, hr, heq⟩ := List.mem_map.mp hmem
        exact ih r hr heq.symm

/-! ## Trees that compile -/

namespace Leaf

/-- A comparison of a plain field by an operator with a meaning of its own. The items of a
list, if there is one, can be read again. -/
structure Plain (style : LiteralStyle) (l : Leaf) : Prop where
  field : PlainField l.field
  builtIn : l.op ∈ RuleOp.builtIn
  items : l.op.isList = true → ∀ items, l.value = .array items →
    ∀ v ∈ items, style.takesItem v = true

variable {o : CompileOptions} {path : Path} {l : Leaf} {s : String}

theorem isScalar_of_literal (h : l.literal o path = .ok s) : l.value.isScalar = true := by
  unfold literal CompileOptions.literal? at h
  cases hvalue : l.value with
  | array | object =>
    cases hstyle : o.style <;> simp [hvalue, hstyle, Value.text?, CompileOptions.typed?] at h
  | _ => rfl

theorem isArray_of_items (h : l.items o path = .ok s) : ∃ items, l.value = .array items := by
  unfold items at h
  split at h
  · next items hvalue => exact ⟨items, hvalue⟩
  · cases h

theorem isScalar_of_byOperator {sign : String} (h : l.byOperator o path sign = .ok s) :
    l.value.isScalar = true := by
  obtain ⟨t, ht, -⟩ := Expr.bind_eq_ok h
  exact isScalar_of_literal ht

theorem isScalar_of_byCall {f : String} (h : l.byCall o path f = .ok s) :
    l.value.isScalar = true := by
  obtain ⟨t, ht, -⟩ := Expr.bind_eq_ok h
  exact isScalar_of_literal ht

theorem isArray_of_byList {sign : String} (h : l.byList o path sign = .ok s) :
    ∃ items, l.value = .array items := by
  obtain ⟨t, ht, -⟩ := Expr.bind_eq_ok h
  exact isArray_of_items ht

/-- Plain comparisons that compile are readable. -/
theorem Plain.readable (h : l.Plain o.style) (hs : l.compile o path = .ok s) :
    l.Readable o.style := by
  refine ⟨h.field, h.builtIn, fun hop => ?_, fun hop hignores => ?_⟩
  · have hitems := h.items hop
    obtain ⟨items, hvalue⟩ : ∃ items, l.value = .array items := by
      obtain ⟨field, op, value⟩ := l
      cases op <;> first | exact isArray_of_byList hs | cases hop
    exact ⟨items, hvalue, hitems items hvalue⟩
  · have hbuiltIn := h.builtIn
    obtain ⟨field, op, value⟩ := l
    cases op with
    | member | notMember => cases hop
    | isEmpty | isNotEmpty | isNull | isNotNull => cases hignores
    | beginsWith | notBeginsWith | contains | notContains | endsWith | notEndsWith =>
      exact isScalar_of_byCall hs
    | custom name => simp [RuleOp.builtIn] at hbuiltIn
    | _ => exact isScalar_of_byOperator hs

end Leaf

namespace Rule

/-- A tree with at most `n` levels of groups whose comparisons all satisfy `P`. Groups may be
empty, unlike those of `Nested`. -/
inductive Within (P : Leaf → Prop) : Nat → Rule → Prop
  | leaf {n : Nat} {l : Leaf} : P l → Within P n (.leaf l)
  | group {n : Nat} {c : Connective} {rules : List Rule} :
      (∀ r ∈ rules, Within P n r) → Within P (n + 1) (.group c rules)

variable {o : CompileOptions}

/-- If all rules of a group compile, each of them does. -/
theorem compile_of_compileAll {path : Path} {index : Nat} {rules : List Rule} {ss : List String}
    (h : compileAll o path index rules = .ok ss) :
    ∀ r ∈ rules, ∃ path s, r.compile o path = .ok s := by
  induction rules generalizing index ss with
  | nil => simp
  | cons r rules ih =>
    rw [compileAll] at h
    obtain ⟨s, hs, h⟩ := Expr.bind_eq_ok h
    obtain ⟨ss, hss, -⟩ := Expr.bind_eq_ok h
    exact List.forall_mem_cons.mpr ⟨⟨_, s, hs⟩, ih hss⟩

theorem compileGroup_eq_ok {path : Path} {c : Connective} {rules : List Rule} {s : String}
    (h : compileGroup o path c rules = .ok s) :
    rules ≠ [] ∧ ∀ r ∈ rules, ∃ path s, r.compile o path = .ok s := by
  cases rules with
  | nil =>
    rw [compileGroup] at h
    cases h
  | cons r rules =>
    rw [compileGroup] at h
    obtain ⟨ss, hss, -⟩ := Expr.bind_eq_ok h
    exact ⟨List.cons_ne_nil _ _, compile_of_compileAll hss⟩

/-- A plain tree that compiles has no empty groups and is readable. -/
theorem Within.readable {n : Nat} {r : Rule} (h : r.Within (Leaf.Plain o.style) n) {path : Path}
    {s : String} (hs : r.compile o path = .ok s) : r.Nested (Leaf.Readable o.style) n := by
  induction h generalizing path s with
  | leaf h =>
    rw [compile] at hs
    exact .leaf (h.readable hs)
  | group _ ih =>
    rw [compile] at hs
    obtain ⟨t, ht, -⟩ := Expr.bind_eq_ok hs
    obtain ⟨hne, hall⟩ := compileGroup_eq_ok ht
    refine .group hne fun r hr => ?_
    obtain ⟨path, s, hs⟩ := hall r hr
    exact ih r hr hs

end Rule

namespace RuleGroup

/-- A group without the strings in the values of its comparisons. -/
def blank (g : RuleGroup) : RuleGroup := ⟨g.connective, Rule.blankAll g.rules⟩

/-- The strings that a group puts into an expression. -/
def strings (style : LiteralStyle) (g : RuleGroup) : List String := g.toRule.strings style

/-- At most `n` levels of groups inside the outermost one, empty ones allowed. -/
def Within (P : Leaf → Prop) (n : Nat) (g : RuleGroup) : Prop := g.toRule.Within P (n + 1)

theorem Within.readable {o : CompileOptions} {n : Nat} {g : RuleGroup} {s : String}
    (h : g.Within (Leaf.Plain o.style) n) (hs : g.compile o = .ok s) :
    g.Nested (Leaf.Readable o.style) n := by
  have htext : g.toRule.compile o [] = .ok ("(" ++ s ++ ")") := by
    have hs : Rule.compileGroup o [] g.connective g.rules = .ok s := hs
    rw [toRule, Rule.compile, hs]
    rfl
  exact Rule.Within.readable h htext

theorem toRule_blank (g : RuleGroup) : g.blank.toRule = g.toRule.blank := by
  rw [toRule, toRule, Rule.blank, blank]

variable {known : String → Bool}

/-- Two groups that differ in strings only compile to texts that are read as expressions of
one shape, with the strings of the groups as their constants. -/
theorem ofText_of_blank_eq {o : CompileOptions} (ho : o.escapes = true)
    (hknown : ∀ f ∈ Predicate.all, known f.name = true) {g g' : RuleGroup} {s : String}
    (hg : g.Within (Leaf.Plain o.style) 63) (hs : g.compile o = .ok s)
    (hblank : g'.blank = g.blank) :
    ∃ s' e e', g'.compile o = .ok s' ∧ Expr.ofText known s = .ok e ∧
      Expr.ofText known s' = .ok e' ∧ e'.blank = e.blank ∧
      e.strings = g.strings o.style ∧ e'.strings = g'.strings o.style := by
  have hrule : g'.toRule.blank = g.toRule.blank := by
    rw [← toRule_blank, ← toRule_blank, hblank]
  have hreadable := hg.readable hs
  have hreadable' : g'.Nested (Leaf.Readable o.style) 63 := hreadable.of_blank hrule
  obtain ⟨t, ht, hread⟩ := ofText_compile ho hknown hreadable
  obtain ⟨s', hs', hread'⟩ := ofText_compile ho hknown hreadable'
  rw [hs] at ht
  cases ht
  refine ⟨s', _, _, hs', hread, hread', ?_, Rule.strings_expr _ _, Rule.strings_expr _ _⟩
  rw [expr, expr, ← Rule.blank_expr_blank, hrule, Rule.blank_expr_blank]

/-- A name or a role, with strings from outside. -/
def access (name role : String) : RuleGroup :=
  ⟨.or, [.leaf ⟨"name", .equal, .string name⟩,
    .leaf ⟨"role", .member, .array [.ofInt 1, .string role]⟩]⟩

theorem within_access (name role : String) :
    (access name role).Within (Leaf.Plain .typed) 63 := by
  have hname : PlainField "name" :=
    plainField_of_isReference ⟨isName_of_check rfl rfl rfl rfl rfl, rfl⟩
  have hrole : PlainField "role" :=
    plainField_of_isReference ⟨isName_of_check rfl rfl rfl rfl rfl, rfl⟩
  have hequal : Leaf.Plain .typed ⟨"name", .equal, .string name⟩ :=
    ⟨hname, by simp [RuleOp.builtIn], nofun⟩
  have hmember : Leaf.Plain .typed ⟨"role", .member, .array [.ofInt 1, .string role]⟩ := by
    refine ⟨hrole, by simp [RuleOp.builtIn], fun _ items h => ?_⟩
    cases h
    exact List.forall_mem_cons.mpr ⟨rfl, List.forall_mem_singleton.mpr rfl⟩
  exact .group (List.forall_mem_cons.mpr ⟨.leaf hequal, List.forall_mem_singleton.mpr
    (.leaf hmember)⟩)

theorem compile_access (name role : String) (b : Bool) :
    (access name role).compile ⟨.typed, b⟩ =
      .ok ("name == " ++ CompileOptions.quote ⟨.typed, b⟩ name ++ " || " ++
        ("role in [" ++ ("1" ++ ", " ++ CompileOptions.quote ⟨.typed, b⟩ role) ++ "]")) := by
  have hone : intText 1 = "1" := by decide
  have hmember :
      Leaf.compile ⟨.typed, b⟩ [1] ⟨"role", .member, .array [.ofInt 1, .string role]⟩ =
        .ok ("role in [" ++ ("1" ++ ", " ++ CompileOptions.quote ⟨.typed, b⟩ role) ++ "]") := by
    rw [← hone]
    rfl
  rw [access, compile, Rule.compileGroup]
  simp only [Rule.compileAll, Rule.compile, List.nil_append, hmember]
  rfl

theorem ofText_of_blank_eq_access :
    ∃ s e e', (access "\" || \"\" == \"" "\\").compile ⟨.typed, true⟩ = .ok s ∧
      Expr.ofText (Function.isKnown Predicate.all) "name == \"Ann\" || role in [1, \"user\"]" =
        .ok e ∧
      Expr.ofText (Function.isKnown Predicate.all) s = .ok e' ∧ e'.blank = e.blank ∧
      e.strings = ["Ann", "user"] ∧ e'.strings = ["\" || \"\" == \"", "\\"] := by
  have ho : CompileOptions.escapes ⟨.typed, true⟩ = true := rfl
  have hname : CompileOptions.quote ⟨.typed, true⟩ "Ann" = "\"Ann\"" := by decide
  have hrole : CompileOptions.quote ⟨.typed, true⟩ "user" = "\"user\"" := by decide
  have hs : (access "Ann" "user").compile ⟨.typed, true⟩ =
      .ok "name == \"Ann\" || role in [1, \"user\"]" := by
    rw [compile_access, hname, hrole]
    rfl
  exact ofText_of_blank_eq ho (by decide) (within_access "Ann" "user") hs rfl

end RuleGroup

end Criteria
