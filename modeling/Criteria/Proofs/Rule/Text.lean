import Criteria.Proofs.Expr.Operand
import Criteria.Proofs.Rule.Tree
import Criteria.Rule.Predicate

/-!
# The text of rules

The text of a readable tree of rules is read as the expression of the tree. The texts of
literals, comparisons and groups are put together like their expressions, and with them
the levels of nesting that reading needs: four for a comparison, three more for each group
around it. This leaves room for 63 groups inside the outermost one.
-/

namespace Criteria

open Criteria.Expr

variable {known : String → Bool} {k : Nat}

/-! ## Values -/

theorem escapes_quote : Escapes CompileOptions.escape := by
  intro c
  unfold CompileOptions.escape
  split
  · next hc => rcases hc with rfl | rfl <;> exact .inr ⟨_, rfl, rfl⟩
  · next hc => exact .inl ⟨rfl, fun h => hc (.inr h), fun h => hc (.inl h)⟩

theorem source_written (n : Number) :
    ∃ (negative : Bool) (w : Written), w.Proper ∧
      n.source.toList = Decimal.sign negative ++ w.text := by
  cases n with
  | int n lower upper =>
    refine ⟨decide (n < 0), ⟨Nat.toDigits 10 n.natAbs, none, none⟩,
      Written.proper_toDigits _, ?_⟩
    rw [Written.text_of_whole, Number.source, intText, String.toList_ofList]
  | float x finite =>
    obtain ⟨w, hw, -, htext⟩ := Binary64.sourceText_written finite
    exact ⟨_, w, hw, by rw [← htext, Number.source, String.toList_ofList]⟩

theorem text_written (n : Number) :
    ∃ (negative : Bool) (w : Written), w.Proper ∧
      n.toNumeric.text.toList = Decimal.sign negative ++ w.text := by
  have hfloat {x : Binary64} (hx : x.isFinite = true) : ∃ (negative : Bool) (w : Written),
      w.Proper ∧ (Numeric.float x).text.toList = Decimal.sign negative ++ w.text := by
    simpa [Numeric.text] using Binary64.scalarText_written hx
  cases n with
  | int n lower upper =>
    by_cases hfits : Fits n
    · rw [Number.toNumeric, Numeric.ofInt, dif_pos hfits]
      exact source_written (.int n lower upper)
    · have hsmall : n.natAbs < 2 ^ (64 : Nat) := by omega
      rw [Number.toNumeric, Numeric.ofInt, dif_neg hfits]
      exact hfloat (Binary64.isFinite_ofInt hsmall)
  | float x finite => exact hfloat finite

theorem Value.exists_text? (v : Value) (hv : v.isScalar = true) : ∃ s, v.text? = some s := by
  cases v with
  | array items => cases hv
  | object entries => cases hv
  | _ => exact ⟨_, rfl⟩

section Value

variable {o : CompileOptions} (ho : o.escapes = true)

include ho

theorem operand_quote (s : String) :
    Operand known 0 (.const (.string s)) (o.quote s).toList [.string s] := by
  simp only [CompileOptions.quote, ho, if_true, String.toList_ofList]
  exact operand_string escapes_quote s

theorem operand_typed {v : Value} (hv : v.isScalar = true) :
    ∃ s ls, o.typed? v = some s ∧ Operand known 1 (LiteralStyle.typedExpr v) s.toList ls := by
  have hmono : 0 ≤ 1 := Nat.zero_le 1
  cases v with
  | null => exact ⟨_, _, rfl, (operand_word (.inl rfl) rfl).mono hmono⟩
  | bool b =>
    cases b
    · exact ⟨_, _, rfl, (operand_word (.inr (.inr rfl)) rfl).mono hmono⟩
    · exact ⟨_, _, rfl, (operand_word (.inr (.inl rfl)) rfl).mono hmono⟩
  | number n =>
    obtain ⟨negative, w, hw, htext⟩ := source_written n
    obtain ⟨ls, hoperand⟩ := operand_numeral known negative hw
    exact ⟨_, ls, rfl, by rwa [LiteralStyle.typedExpr, htext]⟩
  | string s => exact ⟨_, _, rfl, (operand_quote ho s).mono hmono⟩
  | array items => cases hv
  | object entries => cases hv

theorem operand_literal {v : Value} (hv : v.isScalar = true) :
    ∃ s ls, o.literal? v = some s ∧ Operand known 1 (o.style.literal v) s.toList ls := by
  unfold CompileOptions.literal? LiteralStyle.literal
  cases o.style with
  | quoted =>
    obtain ⟨s, hs⟩ := v.exists_text? hv
    simp only [hs, Option.map_some, Option.getD_some]
    exact ⟨_, _, rfl, (operand_quote ho s).mono (Nat.zero_le 1)⟩
  | typed => exact operand_typed ho hv

theorem operand_item {v : Value} (hv : o.style.takesItem v = true) :
    ∃ s ls, o.item? v = some s ∧ Operand known 1 (o.style.item v) s.toList ls := by
  unfold CompileOptions.item? LiteralStyle.item
  cases hstyle : o.style with
  | quoted =>
    rw [hstyle] at hv
    cases v with
    | number n =>
      obtain ⟨negative, w, hw, htext⟩ := text_written n
      obtain ⟨ls, hoperand⟩ := operand_numeral known negative hw
      exact ⟨_, ls, rfl, by rwa [← htext] at hoperand⟩
    | _ => cases hv
  | typed =>
    rw [hstyle] at hv
    exact operand_typed ho hv

/-- The items of a list, one by one. -/
theorem items_of_mapM {vs : List Value} (hvs : ∀ v ∈ vs, o.style.takesItem v = true) :
    ∃ ss lss, vs.mapM o.item? = some ss ∧ AllLegible (ss.map String.toList) lss ∧
      Items known (fun _ => (· ≤ 2)) 0 (vs.map o.style.item) lss := by
  induction vs with
  | nil => exact ⟨[], [], rfl, .nil, .nil⟩
  | cons v vs ih =>
    obtain ⟨hv, hvs⟩ := List.forall_mem_cons.mp hvs
    obtain ⟨s, ls, hs, hoperand⟩ := operand_item ho hv
    obtain ⟨ss, lss, hss, hlegible, hitems⟩ := ih hvs
    refine ⟨s :: ss, ls :: lss, ?_, .cons hoperand.lexed hlegible,
      .cons (hoperand.item (Nat.zero_le 50)) hitems⟩
    rw [List.mapM_cons, hs, hss]
    rfl

end Value

/-! ## Comparisons -/

/-- The outcome of a compilation is a text that is a part `e`. -/
def Compiles (known : String → Bool) (k : Nat) (e : Expr) (outcome : Except RuleError String) :
    Prop :=
  ∃ s ls, outcome = .ok s ∧ Part known k e s.toList ls

theorem Compiles.intro {e : Expr} {outcome : Except RuleError String} {s : String}
    {cs : List Char} {ls : List Lexeme} (h : outcome = .ok s) (hs : s.toList = cs)
    (hpart : Part known k e cs ls) : Compiles known k e outcome :=
  ⟨s, ls, h, hs ▸ hpart⟩

namespace Leaf

variable {o : CompileOptions} (ho : o.escapes = true) {l : Leaf} (hfield : IsReference l.field)
  (path : Path)

include ho hfield

theorem compiles_byOperator (op : BinaryOp) (hop : op.precedence = 20)
    (hv : l.value.isScalar = true) :
    Compiles known 4 (.binary op (.name l.field) (o.style.literal l.value))
      (l.byOperator o path op.symbol) := by
  obtain ⟨s, ls, hs, hoperand⟩ := operand_literal ho hv
  have htext : l.byOperator o path op.symbol =
      .ok (l.field ++ " " ++ op.symbol ++ " " ++ s) := by
    rw [byOperator, literal, hs]
    rfl
  exact .intro htext (by simp) ((part_binary hop hfield hoperand).mono (by decide))

theorem compiles_byList (op : BinaryOp) (hop : op.precedence = 20) {items : List Value}
    (hvalue : l.value = .array items) (hitems : ∀ v ∈ items, o.style.takesItem v = true) :
    Compiles known 4 (.binary op (.name l.field) (o.style.list l.value))
      (l.byList o path op.symbol) := by
  obtain ⟨ss, lss, hss, hlegible, hall⟩ := items_of_mapM ho hitems
  have htext : l.byList o path op.symbol =
      .ok (l.field ++ " " ++ op.symbol ++ " [" ++ String.intercalate ", " ss ++ "]") := by
    rw [byList, Leaf.items, hvalue]
    simp only [hss]
    rfl
  rw [hvalue, LiteralStyle.list]
  exact .intro htext (by simp) (part_binary hop hfield (operand_array hlegible hall))

section

variable {f : String} (hf : IsReference f) (hk : known f = true)

include hf hk

/-- A predicate on field and value, and its negation. -/
theorem compiles_byCall (hv : l.value.isScalar = true) :
    Compiles known 4 (.call f [.name l.field, o.style.literal l.value]) (l.byCall o path f) ∧
      Compiles known 4 (.unary .not (.call f [.name l.field, o.style.literal l.value]))
        (l.byCall o path ("!" ++ f)) := by
  obtain ⟨s, ls, hs, hoperand⟩ := operand_literal ho hv
  have hname : Operand known 1 (.name l.field) _ _ := (operand_name hfield).mono (Nat.zero_le 1)
  obtain ⟨ls', hcall, hnot⟩ := operand_renderCall hf hk [l.field, s]
    (.cons hname.lexed (.cons hoperand.lexed .nil))
    (.cons (hname.item (Nat.zero_le 50)) (.cons (hoperand.item (Nat.zero_le 50)) .nil))
  have htext (g : String) : l.byCall o path g = .ok (g ++ "(" ++ l.field ++ ", " ++ s ++ ")") := by
    rw [byCall, literal, hs]
    rfl
  constructor
  · exact .intro (htext f) (by simp [Function.renderCall]) (hcall.part.mono (by decide))
  · exact .intro (htext ("!" ++ f)) (by simp [Function.renderCall]) (hnot.part.mono (by decide))

omit ho in
/-- A predicate on the field alone, and its negation. -/
theorem compiles_call :
    Compiles known 4 (.call f [.name l.field]) (.ok (f ++ "(" ++ l.field ++ ")")) ∧
      Compiles known 4 (.unary .not (.call f [.name l.field]))
        (.ok ("!" ++ f ++ "(" ++ l.field ++ ")")) := by
  have hname : Operand known 1 (.name l.field) _ _ := (operand_name hfield).mono (Nat.zero_le 1)
  obtain ⟨ls', hcall, hnot⟩ := operand_renderCall hf hk [l.field]
    (.cons hname.lexed .nil) (.cons (hname.item (Nat.zero_le 50)) .nil)
  constructor
  · exact .intro rfl (by simp [Function.renderCall]) (hcall.part.mono (by decide))
  · exact .intro rfl (by simp [Function.renderCall]) (hnot.part.mono (by decide))

end

omit ho in
/-- A comparison with null. -/
theorem compiles_null (op : BinaryOp) (hop : op.precedence = 20) {s : String}
    (hs : s.toList = ' ' :: (op.symbol.toList ++ " null".toList)) :
    Compiles known 4 (.binary op (.name l.field) (.const .null)) (.ok (l.field ++ s)) := by
  have hnull : Operand known 0 (.const .null) "null".toList [.name "null"] :=
    operand_word (.inl rfl) rfl
  exact .intro rfl (by simp [hs]) ((part_binary hop hfield hnull).mono (by decide))

omit hfield in
/-- Readable comparisons have a text, which is read as their expression. -/
theorem compiles (h : l.Readable o.style) (hknown : ∀ f ∈ Predicate.all, known f.name = true) :
    Compiles known 4 (l.expr o.style) (l.compile o path) := by
  obtain ⟨field, op, value⟩ := l
  obtain ⟨hfield, hop, hlist, hscalar⟩ := h
  have hfield := hfield.isReference
  simp only [Predicate.all, List.forall_mem_cons] at hknown
  obtain ⟨hstarts, hcontains, hends, hempty, -⟩ := hknown
  have hrefs : IsReference "str_starts_with" ∧ IsReference "str_contains" ∧
      IsReference "str_ends_with" ∧ IsReference "empty" := by
    refine ⟨?_, ?_, ?_, ?_⟩ <;> exact ⟨isName_of_check rfl rfl rfl rfl rfl, rfl⟩
  cases op with
  | equal => exact compiles_byOperator ho hfield path .equal rfl (hscalar rfl rfl)
  | notEqual => exact compiles_byOperator ho hfield path .notEqual rfl (hscalar rfl rfl)
  | less => exact compiles_byOperator ho hfield path .less rfl (hscalar rfl rfl)
  | lessOrEqual =>
    exact compiles_byOperator ho hfield path .lessOrEqual rfl (hscalar rfl rfl)
  | greater => exact compiles_byOperator ho hfield path .greater rfl (hscalar rfl rfl)
  | greaterOrEqual =>
    exact compiles_byOperator ho hfield path .greaterOrEqual rfl (hscalar rfl rfl)
  | member =>
    obtain ⟨items, hvalue, hitems⟩ := hlist rfl
    exact compiles_byList ho hfield path .member rfl hvalue hitems
  | notMember =>
    obtain ⟨items, hvalue, hitems⟩ := hlist rfl
    exact compiles_byList ho hfield path .notMember rfl hvalue hitems
  | beginsWith => exact (compiles_byCall ho hfield path hrefs.1 hstarts (hscalar rfl rfl)).1
  | notBeginsWith => exact (compiles_byCall ho hfield path hrefs.1 hstarts (hscalar rfl rfl)).2
  | contains => exact (compiles_byCall ho hfield path hrefs.2.1 hcontains (hscalar rfl rfl)).1
  | notContains => exact (compiles_byCall ho hfield path hrefs.2.1 hcontains (hscalar rfl rfl)).2
  | endsWith => exact (compiles_byCall ho hfield path hrefs.2.2.1 hends (hscalar rfl rfl)).1
  | notEndsWith => exact (compiles_byCall ho hfield path hrefs.2.2.1 hends (hscalar rfl rfl)).2
  | isEmpty => exact (compiles_call hfield hrefs.2.2.2 hempty).1
  | isNotEmpty => exact (compiles_call hfield hrefs.2.2.2 hempty).2
  | isNull => exact compiles_null hfield .identical rfl rfl
  | isNotNull => exact compiles_null hfield .notIdentical rfl rfl
  | custom name => simp [RuleOp.builtIn] at hop

end Leaf

/-! ## Groups -/

namespace Rule

variable {o : CompileOptions}

/-- The rules of a group are compiled one by one, if each of them can be. -/
theorem compileAll_parts (path : Path) {rules : List Rule}
    (h : ∀ r ∈ rules, ∀ path, Compiles known k (r.expr o.style) (r.compile o path))
    (index : Nat) :
    ∃ ss lss, compileAll o path index rules = .ok ss ∧
      Parts known k (exprs o.style rules) (ss.map String.toList) lss := by
  induction rules generalizing index with
  | nil => exact ⟨[], [], by rw [compileAll], .nil⟩
  | cons r rules ih =>
    obtain ⟨hr, hrules⟩ := List.forall_mem_cons.mp h
    obtain ⟨s, ls, hs, hpart⟩ := hr (path ++ [index])
    obtain ⟨ss, lss, hss, hparts⟩ := ih hrules (index + 1)
    refine ⟨s :: ss, ls :: lss, ?_, .cons hpart hparts⟩
    rw [compileAll, hs, hss]
    rfl

theorem exprs_ne_nil {style : LiteralStyle} {rules : List Rule} (h : rules ≠ []) :
    exprs style rules ≠ [] := by
  cases rules with
  | nil => exact absurd rfl h
  | cons r rules => simp [exprs]

theorem compileGroup_chain (path : Path) (c : Connective) {rules : List Rule} (hne : rules ≠ [])
    (hk : 1 ≤ k)
    (h : ∀ r ∈ rules, ∀ path, Compiles known k (r.expr o.style) (r.compile o path)) :
    ∃ s ls, compileGroup o path c rules = .ok s ∧ Legible s.toList ls ∧
      Item known (· ≤ 3 + k) 0 (.joinAll c.op (exprs o.style rules)) ls := by
  obtain ⟨ss, lss, hss, hparts⟩ := compileAll_parts path h 0
  obtain ⟨hlegible, hitem⟩ := hparts.chain c.isLogical_op hk (exprs_ne_nil hne)
  obtain ⟨r, rules, rfl⟩ := List.exists_cons_of_ne_nil hne
  refine ⟨String.intercalate (" " ++ c.sign ++ " ") ss, _, ?_, ?_, hitem⟩
  · rw [compileGroup, hss]
    rfl
  · simpa [c.symbol_op] using hlegible

/-- Readable trees have a text, which is read as their expression. -/
theorem compiles (ho : o.escapes = true) (hknown : ∀ f ∈ Predicate.all, known f.name = true)
    {n : Nat} {r : Rule} (h : r.Nested (Leaf.Readable o.style) n) (path : Path) :
    Compiles known (4 + 3 * n) (r.expr o.style) (r.compile o path) := by
  induction h generalizing path with
  | leaf h =>
    rw [compile, expr]
    obtain ⟨s, ls, hs, hpart⟩ := Leaf.compiles ho path h hknown
    exact ⟨s, ls, hs, hpart.mono (by omega)⟩
  | @group n c rules hne _ ih =>
    obtain ⟨s, ls, hs, hlegible, hitem⟩ :=
      compileGroup_chain path c hne (by omega) ih
    have hpart := (operand_group hlegible hitem).part
    have htext : (Rule.group c rules).compile o path = .ok ("(" ++ s ++ ")") := by
      rw [compile, hs]
      rfl
    rw [expr]
    exact .intro htext (by simp) (hpart.mono (by omega))

end Rule

namespace RuleGroup

variable {o : CompileOptions} {g : RuleGroup}

/-- The text of a readable group of rules is read as the expression of the group. -/
theorem ofText_compile (ho : o.escapes = true)
    (hknown : ∀ f ∈ Predicate.all, known f.name = true)
    (h : g.Nested (Leaf.Readable o.style) 63) :
    ∃ s, g.compile o = .ok s ∧ Expr.ofText known s = .ok (g.expr o.style) := by
  cases h with
  | group hne hrules =>
    obtain ⟨s, ls, hs, hlegible, hitem⟩ :=
      Rule.compileGroup_chain [] g.connective (k := 4 + 3 * 63) hne (by decide)
        fun r hr path => Rule.compiles ho hknown (hrules r hr) path
    exact ⟨s, hs, hitem.ofText_eq hlegible (by decide)⟩

end RuleGroup

end Criteria
