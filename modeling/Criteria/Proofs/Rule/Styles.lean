import Criteria.Proofs.Rule.Evaluation
import Criteria.Proofs.Value.Order

/-!
# Integers in both styles

The value of a rule is a string to the one style and a number to the other. Where rules compare
numbers, or strings that are numerals, with integers, no difference can be seen from outside: a
comparison is decided by the order of the two numbers, so that a tree of such comparisons has one
outcome. It is an answer unless a field is missing.
-/

namespace Criteria

/-! ## Comparisons -/

namespace RuleOp

/-- The operators that an order of two values decides. -/
def comparisons : List RuleOp := [equal, notEqual, less, lessOrEqual, greater, greaterOrEqual]

/-- The orders that a comparison holds of. -/
def accepts (op : RuleOp) (o : Ordering) : Bool :=
  match op with
  | equal => o == .eq
  | notEqual => o != .eq
  | less => o == .lt
  | lessOrEqual => o != .gt
  | greater => o == .gt
  | greaterOrEqual => o != .lt
  | _ => false

theorem of_mem_comparisons {op : RuleOp} (h : op ∈ comparisons) :
    op ∈ builtIn ∧ op.isList = false := by
  revert op
  decide

theorem test_of_compare? {op : RuleOp} (hop : op ∈ comparisons) {v w : Value} {o : Ordering}
    (h : v.compare? w = some o) : op.test v w = .ok (op.accepts o) := by
  have hcompare := Value.compareAs_of_compare? h
  have hequal := Value.looseEq_of_compare? h
  simp only [comparisons, List.mem_cons, List.not_mem_nil, or_false] at hop
  rcases hop with rfl | rfl | rfl | rfl | rfl | rfl
  · rw [test, hequal, accepts]
  · rw [test, hequal, accepts, bne]
  all_goals
    rw [test, hcompare, accepts]
    rfl

end RuleOp

/-- A comparison of a field with an integer below `2 ^ 63` in magnitude. -/
structure Leaf.OnInteger (l : Leaf) : Prop where
  field : PlainField l.field
  op : l.op ∈ RuleOp.comparisons
  value : ∃ n lower upper, l.value = .number (.int n lower upper) ∧ n.natAbs < 2 ^ (63 : Nat)

/-- The values that a record has for some fields are numbers, or strings that are numerals. -/
def Numbers (vars : Record) (fields : List String) : Prop :=
  ∀ f ∈ fields, ∀ v, vars.lookup f = some v → v.numeric?.isSome = true

/-- An answer, or the failure over a missing field out of some fields. -/
inductive Settled (vars : Record) (fields : List String) : Except ExprError Bool → Prop
  | answer (b : Bool) : Settled vars fields (.ok b)
  | missing {f : String} : f ∈ fields → vars.lookup f = none →
      Settled vars fields (.error (.undefinedVariable f))

theorem Settled.mono {vars : Record} {fields fields' : List String} {x : Except ExprError Bool}
    (h : Settled vars fields x) (hsubset : fields ⊆ fields') : Settled vars fields' x := by
  cases h with
  | answer b => exact .answer b
  | missing hf hlookup => exact .missing (hsubset hf) hlookup

/-- The integer is the same one as a string and as a number. -/
theorem LiteralStyle.numeric?_operand (style : LiteralStyle) {n : Int} (lower : -2 ^ (63 : Nat) ≤ n)
    (upper : n < 2 ^ (64 : Nat)) (h : Fits n) :
    (style.operand (.number (.int n lower upper))).numeric? = some (.int n h) := by
  have hnumeric : (Number.int n lower upper).toNumeric = .int n h := dif_pos h
  cases style with
  | quoted =>
    rw [operand, Value.text?, hnumeric, Option.getD_some]
    exact Numeric.ofText?_intText h
  | typed => exact congrArg some hnumeric

namespace Leaf.OnInteger

variable {l : Leaf} (h : l.OnInteger)

include h

theorem faithful (style : LiteralStyle) : l.Faithful style := by
  obtain ⟨hbuiltIn, hlist⟩ := RuleOp.of_mem_comparisons h.op
  obtain ⟨n, lower, upper, hvalue, hsmall⟩ := h.value
  constructor
  · exact h.field
  · exact hbuiltIn
  · intro hop
    rw [hlist] at hop
    cases hop
  · intro _ _
    rw [hvalue]
    cases style with
    | quoted => rfl
    | typed => exact decide_eq_true hsmall

/-- There is one number to compare with. -/
theorem exists_numeric? : ∃ a : Numeric, a.toBinary64.isNaN = false ∧
    ∀ style : LiteralStyle, (style.operand l.value).numeric? = some a := by
  obtain ⟨n, lower, upper, hvalue, hsmall⟩ := h.value
  refine ⟨.int n ⟨lower, by omega⟩, Binary64.isNaN_ofInt n, fun style => ?_⟩
  rw [hvalue]
  exact style.numeric?_operand lower upper _

/-- Both styles have one outcome. -/
theorem exists_settled {vars : Record} (hvars : Numbers vars [l.field]) :
    ∃ x, (∀ style, l.holds style vars = x) ∧ Settled vars [l.field] x := by
  obtain ⟨-, hlist⟩ := RuleOp.of_mem_comparisons h.op
  obtain ⟨b, hb, hoperand⟩ := h.exists_numeric?
  have hfield : l.field ∈ [l.field] := List.mem_singleton.mpr rfl
  cases hlookup : vars.lookup l.field with
  | none =>
    refine ⟨_, fun style => ?_, .missing hfield hlookup⟩
    rw [holds, onField, hlookup]
  | some v =>
    obtain ⟨a, ha⟩ := Option.isSome_iff_exists.mp (hvars _ hfield v hlookup)
    obtain ⟨o, ho⟩ := Numeric.exists_compare? (Value.isNaN_of_numeric? ha) hb
    refine ⟨_, fun style => ?_, .answer (l.op.accepts o)⟩
    have hcompare := (Value.compare?_of_numeric? ha (hoperand style)).trans ho
    rw [holds, onField, hlookup, hlist, if_neg (by decide)]
    exact RuleOp.test_of_compare? h.op hcompare

end Leaf.OnInteger

/-! ## Trees -/

namespace Rule

variable {vars : Record} {rules : List Rule}

theorem fields_subset {r : Rule} (h : r ∈ rules) : r.fields ⊆ fieldsOfAll rules := by
  induction rules with
  | nil => cases h
  | cons r' rules ih =>
    rw [fieldsOfAll]
    rcases List.mem_cons.mp h with rfl | h
    · exact List.subset_append_left _ _
    · exact List.subset_append_of_subset_right _ (ih h)

/-- A group goes through its rules in the same way in both styles, as far as it goes. -/
theorem exists_settled_all (c : Connective)
    (h : ∀ r ∈ rules, ∃ x, (∀ style, r.holds style vars = x) ∧ Settled vars r.fields x) :
    ∃ x, (∀ style, holdsAll style vars c rules = x) ∧ Settled vars (fieldsOfAll rules) x := by
  induction rules with
  | nil => exact ⟨_, fun style => rfl, .answer _⟩
  | cons r rules ih =>
    obtain ⟨⟨x, hx, hsettled⟩, hrules⟩ := List.forall_mem_cons.mp h
    obtain ⟨y, hy, hrest⟩ := ih hrules
    refine ⟨_, fun style => by rw [holdsAll, hx, hy], ?_⟩
    rw [fieldsOfAll]
    cases hsettled with
    | missing hf hlookup => exact .missing (List.mem_append_left _ hf) hlookup
    | answer b =>
      by_cases hb : (b == c.decisive) = true
      · rw [ok_bind, if_pos hb]
        exact .answer _
      · rw [ok_bind, if_neg hb]
        exact hrest.mono (List.subset_append_right _ _)

theorem exists_settled {n : Nat} {r : Rule} (h : r.Nested Leaf.OnInteger n)
    (hvars : Numbers vars r.fields) :
    ∃ x, (∀ style, r.holds style vars = x) ∧ Settled vars r.fields x := by
  induction h with
  | leaf h => exact h.exists_settled hvars
  | group _ _ ih =>
    apply exists_settled_all
    intro r hr
    exact ih r hr fun f hf => hvars f (fields_subset hr hf)

end Rule

/-! ## Escapes -/

/-- The digits of an integer need no escapes. -/
theorem escape_of_mem_intText {n : Int} {c : Char} (h : c ∈ (intText n).toList) :
    CompileOptions.escape c = [c] := by
  have hplain {d : Char} (hd : Text.isAsciiDigit d = false) (hsign : d ≠ '-') : c ≠ d := by
    rintro rfl
    rw [intText, String.toList_ofList] at h
    rcases List.mem_append.mp h with hmem | hmem
    · cases hneg : decide (n < 0) <;> simp_all [Decimal.sign]
    · rw [Text.isAsciiDigit_of_mem_toDigits hmem] at hd
      cases hd
  rw [CompileOptions.escape, if_neg]
  intro hc
  rcases hc with hc | hc
  · exact hplain (by decide) (by decide) hc
  · exact hplain (by decide) (by decide) hc

namespace CompileOptions

variable {o o' : CompileOptions}

theorem flatMap_escape {cs : List Char} (h : ∀ c ∈ cs, escape c = [c]) :
    cs.flatMap escape = cs := by
  induction cs with
  | nil => rfl
  | cons c cs ih =>
    obtain ⟨hc, hcs⟩ := List.forall_mem_cons.mp h
    rw [List.flatMap_cons, hc, ih hcs, List.singleton_append]

theorem quote_intText (n : Int) : o.quote (intText n) = o'.quote (intText n) := by
  simp only [quote, flatMap_escape fun c hc => escape_of_mem_intText hc, ite_self]

/-- The literal of an integer depends on the style alone. -/
theorem literal?_integer (hstyle : o.style = o'.style) {n : Int} (lower : -2 ^ (63 : Nat) ≤ n)
    (upper : n < 2 ^ (64 : Nat)) (h : Fits n) :
    o.literal? (.number (.int n lower upper)) = o'.literal? (.number (.int n lower upper)) := by
  have hnumeric : (Number.int n lower upper).toNumeric = .int n h := dif_pos h
  rw [literal?, literal?, ← hstyle]
  cases o.style with
  | quoted =>
    rw [Value.text?, hnumeric]
    exact congrArg some (quote_intText n)
  | typed => rfl

end CompileOptions

theorem Leaf.compile_congr {o o' : CompileOptions} {l : Leaf} (hop : l.op.isList = false)
    (h : o.literal? l.value = o'.literal? l.value) (path : Path) :
    l.compile o path = l.compile o' path := by
  have hliteral : l.literal o path = l.literal o' path := by
    rw [literal, literal, h]
  obtain ⟨field, op, value⟩ := l
  cases op with
  | member => cases hop
  | notMember => cases hop
  | _ => simp only [compile, byOperator, byCall, hliteral]

namespace Rule

variable {o o' : CompileOptions}

theorem compileAll_congr {rules : List Rule}
    (h : ∀ r ∈ rules, ∀ path, r.compile o path = r.compile o' path) (path : Path) (index : Nat) :
    compileAll o path index rules = compileAll o' path index rules := by
  induction rules generalizing index with
  | nil => rw [compileAll, compileAll]
  | cons r rules ih =>
    obtain ⟨hr, hrules⟩ := List.forall_mem_cons.mp h
    rw [compileAll, compileAll, hr, ih hrules]

theorem compileGroup_congr {rules : List Rule}
    (h : ∀ r ∈ rules, ∀ path, r.compile o path = r.compile o' path) (path : Path)
    (c : Connective) : compileGroup o path c rules = compileGroup o' path c rules := by
  cases rules with
  | nil => rw [compileGroup, compileGroup]
  | cons r rules => rw [compileGroup, compileGroup, compileAll_congr h]

/-- The text of a tree is put together from the texts of its comparisons. -/
theorem compile_congr {P : Leaf → Prop}
    (hP : ∀ l, P l → ∀ path, l.compile o path = l.compile o' path) {n : Nat} {r : Rule}
    (h : r.Nested P n) (path : Path) : r.compile o path = r.compile o' path := by
  induction h generalizing path with
  | leaf h =>
    rw [compile, compile]
    exact hP _ h path
  | group _ _ ih => rw [compile, compile, compileGroup_congr ih]

end Rule

namespace RuleGroup

theorem compile_congr {o o' : CompileOptions} {P : Leaf → Prop}
    (hP : ∀ l, P l → ∀ path, l.compile o path = l.compile o' path) {n : Nat} {g : RuleGroup}
    (h : g.Nested P n) : g.compile o = g.compile o' := by
  cases h with
  | group _ hrules =>
    exact Rule.compileGroup_congr (fun r hr path => Rule.compile_congr hP (hrules r hr) path) _ _

theorem compile_of_style {o o' : CompileOptions} (hstyle : o.style = o'.style) {n : Nat}
    {g : RuleGroup} (h : g.Nested Leaf.OnInteger n) : g.compile o = g.compile o' := by
  refine compile_congr (fun l hl path => ?_) h
  obtain ⟨-, hlist⟩ := RuleOp.of_mem_comparisons hl.op
  obtain ⟨n, lower, upper, hvalue, hsmall⟩ := hl.value
  have hliteral := CompileOptions.literal?_integer hstyle lower upper ⟨lower, by omega⟩
  exact Leaf.compile_congr hlist (hvalue ▸ hliteral) path

/-! ## Two ways to compile -/

/-- Whatever the options are, the text has one of the outcomes that the tree can have. -/
theorem evaluate_compile_onInteger {g : RuleGroup} (h : g.Nested Leaf.OnInteger 63)
    {vars : Record} {x : Except ExprError Bool} (hx : ∀ style, g.holds style vars = x)
    (o : CompileOptions) :
    ∃ s, g.compile o = .ok s ∧ (Predicate.language.evaluate s vars).1 = x.map Value.bool := by
  have hfaithful := h.imp fun _ hl => hl.faithful o.style
  have hreadable := hfaithful.imp fun _ hl => hl.readable
  obtain ⟨s, hs, hread⟩ :=
    ofText_compile (o := ⟨o.style, true⟩) rfl Predicate.isKnown_language hreadable
  have hstyle : o.style = (⟨o.style, true⟩ : CompileOptions).style := rfl
  refine ⟨s, (compile_of_style hstyle h).trans hs, ?_⟩
  rw [evaluate_of_ofText vars hread, ← hx o.style]
  exact Rule.eval_expr hfaithful vars

/-- A tree of comparisons with integers has the same outcome in any two ways to compile it. -/
theorem evaluate_compile_styles (o o' : CompileOptions) {g : RuleGroup}
    (h : g.Nested Leaf.OnInteger 63) {vars : Record} (hvars : Numbers vars g.fields) :
    ∃ s s' x, g.compile o = .ok s ∧ g.compile o' = .ok s' ∧
      (Predicate.language.evaluate s vars).1 = x ∧ (Predicate.language.evaluate s' vars).1 = x ∧
      ((∃ b, x = .ok (.bool b)) ∨
        ∃ f ∈ g.fields, vars.lookup f = none ∧ x = .error (.undefinedVariable f)) := by
  have hmem {f : String} : f ∈ g.fields ↔ f ∈ g.toRule.fields := List.mem_eraseDups
  obtain ⟨x, hx, hsettled⟩ := Rule.exists_settled h fun f hf => hvars f (hmem.mpr hf)
  obtain ⟨s, hs, hvalue⟩ := evaluate_compile_onInteger h hx o
  obtain ⟨s', hs', hvalue'⟩ := evaluate_compile_onInteger h hx o'
  refine ⟨s, s', x.map Value.bool, hs, hs', hvalue, hvalue', ?_⟩
  cases hsettled with
  | answer b => exact .inl ⟨b, rfl⟩
  | missing hf hlookup => exact .inr ⟨_, hmem.mpr hf, hlookup, rfl⟩

/-- A price below eight, and a count that is not minus three or a price that is not negative. -/
def bounded : RuleGroup :=
  ⟨.and, [.leaf ⟨"price", .less, .ofInt 8⟩,
    .group .or [.leaf ⟨"count", .notEqual, .ofInt (-3)⟩,
      .leaf ⟨"price", .greaterOrEqual, .ofInt 0⟩]]⟩

theorem nested_bounded : bounded.Nested Leaf.OnInteger 63 := by
  have hprice : PlainField "price" :=
    plainField_of_isReference ⟨isName_of_check rfl rfl rfl rfl rfl, rfl⟩
  have hcount : PlainField "count" :=
    plainField_of_isReference ⟨isName_of_check rfl rfl rfl rfl rfl, rfl⟩
  have hinteger (n : Int) (h : n.natAbs < 2 ^ (63 : Nat)) : ∃ m lower upper,
      Value.ofInt n = .number (.int m lower upper) ∧ m.natAbs < 2 ^ (63 : Nat) :=
    ⟨n, by omega, by omega, ofInt_eq _ _, h⟩
  refine .group (List.cons_ne_nil _ _) (List.forall_mem_cons.mpr ⟨.leaf ?_, ?_⟩)
  · exact ⟨hprice, by decide, hinteger 8 (by decide)⟩
  refine List.forall_mem_singleton.mpr (.group (List.cons_ne_nil _ _) ?_)
  refine List.forall_mem_cons.mpr ⟨.leaf ?_, List.forall_mem_singleton.mpr (.leaf ?_)⟩
  · exact ⟨hcount, by decide, hinteger (-3) (by decide)⟩
  · exact ⟨hprice, by decide, hinteger 0 (by decide)⟩

/-- The price is a string, and there is no count. -/
theorem evaluate_compile_styles_bounded :
    Numbers [("price", .string "7.5")] bounded.fields ∧
      ∃ s s' x, bounded.compile ⟨.quoted, true⟩ = .ok s ∧ bounded.compile ⟨.typed, false⟩ = .ok s' ∧
        (Predicate.language.evaluate s [("price", .string "7.5")]).1 = x ∧
        (Predicate.language.evaluate s' [("price", .string "7.5")]).1 = x ∧
        ((∃ b, x = .ok (.bool b)) ∨ x = .error (.undefinedVariable "count")) := by
  have hfields : bounded.fields = ["price", "count"] := by decide
  have hvars : Numbers [("price", .string "7.5")] bounded.fields := by
    rw [Numbers, hfields, List.forall_mem_cons, List.forall_mem_singleton]
    constructor
    · intro v hv
      obtain rfl : Value.string "7.5" = v := Option.some.inj hv
      decide
    · nofun
  obtain ⟨s, s', x, hs, hs', hvalue, hvalue', hsettled⟩ :=
    evaluate_compile_styles ⟨.quoted, true⟩ ⟨.typed, false⟩ nested_bounded hvars
  refine ⟨hvars, s, s', x, hs, hs', hvalue, hvalue', hsettled.imp_right ?_⟩
  rintro ⟨f, hf, hlookup, hx⟩
  rw [hfields] at hf
  rcases List.mem_cons.mp hf with rfl | hf
  · cases hlookup
  · obtain rfl := List.mem_singleton.mp hf
    exact hx

end RuleGroup

end Criteria
