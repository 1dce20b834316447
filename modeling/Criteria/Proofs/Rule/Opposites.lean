import Criteria.Proofs.Rule.Membership

/-!
# Opposite rules

Seven operators come with another one that says the opposite. The opposite is written in three
ways: by another sign, by an operator of two words, and by a negation before the call of a
predicate. In all of them the two rules have opposite answers, or fail alike: over a field that is
missing, or over one that has no text where a text is asked for.
-/

namespace Criteria

namespace RuleOp

/-- The operator that says the opposite of another one. -/
def opposite? : RuleOp → Option RuleOp
  | equal => some notEqual
  | member => some notMember
  | beginsWith => some notBeginsWith
  | contains => some notContains
  | endsWith => some notEndsWith
  | isEmpty => some isNotEmpty
  | isNull => some isNotNull
  | _ => none

/-- The negation of an outcome. -/
theorem not_outcome (outcome : Except ExprError Bool) :
    (do return !(← outcome)) = outcome.map (!·) := by
  cases outcome <;> rfl

variable {op op' : RuleOp} (h : op.opposite? = some op')

include h

/-- Both operators take the same values. -/
theorem kinds_of_opposite : op' ∈ builtIn ∧ op'.isList = op.isList ∧
    op'.ignoresValue = op.ignoresValue := by
  cases op <;> cases h <;> decide

/-- The tests of the two operators have opposite outcomes. A list has to be one, since the message
about another value names the operator. -/
theorem test_opposite {w : Value} (hw : op.isList = true → ∃ items, w = .array items) (v : Value) :
    op'.test v w = (op.test v w).map (!·) := by
  cases op with
  | member =>
    cases h
    obtain ⟨items, rfl⟩ := hw rfl
    rfl
  | beginsWith =>
    cases h
    exact not_outcome _
  | contains =>
    cases h
    exact not_outcome _
  | endsWith =>
    cases h
    exact not_outcome _
  | isEmpty =>
    cases h
    rw [test, test, Except.map, Bool.not_not]
  | _ => cases h <;> rfl

end RuleOp

/-! ## Failures -/

/-- A value without a text is the only one that a predicate on texts refuses. -/
theorem Predicate.textArgument_cases (function : String) (v : Value) :
    (∃ s, textArgument function v = .ok s) ∨
      v.isScalar = false ∧ textArgument function v = .error (.badArguments function .notScalar) := by
  cases v with
  | array items => exact .inr ⟨rfl, rfl⟩
  | object entries => exact .inr ⟨rfl, rfl⟩
  | _ => exact .inl ⟨_, rfl⟩

theorem textTest_cases (function : String) (test : String → String → Bool) (v : Value) {w : Value}
    (hw : w.isScalar = true) :
    (∃ b, textTest function test v w = .ok b) ∨
      v.isScalar = false ∧
        textTest function test v w = .error (.badArguments function .notScalar) := by
  unfold textTest
  rcases Predicate.textArgument_cases function v with ⟨s, hs⟩ | ⟨hv, hs⟩
  · rcases Predicate.textArgument_cases function w with ⟨t, ht⟩ | ⟨hw', -⟩
    · exact .inl ⟨_, by rw [hs, ht]; rfl⟩
    · rw [hw] at hw'
      cases hw'
  · exact .inr ⟨hv, by rw [hs]; rfl⟩

/-- A test that has an opposite fails over a value without a text only. -/
theorem RuleOp.test_cases {op op' : RuleOp} (h : op.opposite? = some op') (v : Value) {w : Value}
    (hlist : op.isList = true → ∃ items, w = .array items)
    (hscalar : op.isList = false → op.ignoresValue = false → w.isScalar = true) :
    (∃ b, op.test v w = .ok b) ∨
      v.isScalar = false ∧ ∃ function, op.test v w = .error (.badArguments function .notScalar) := by
  have htext (function : String) (test : String → String → Bool) (hw : w.isScalar = true) :
      (∃ b, textTest function test v w = .ok b) ∨ v.isScalar = false ∧
        ∃ function', textTest function test v w = .error (.badArguments function' .notScalar) :=
    (textTest_cases function test v hw).imp_right fun hv => ⟨hv.1, function, hv.2⟩
  cases op with
  | member =>
    obtain ⟨items, rfl⟩ := hlist rfl
    exact .inl ⟨_, rfl⟩
  | beginsWith => exact htext _ _ (hscalar rfl rfl)
  | contains => exact htext _ _ (hscalar rfl rfl)
  | endsWith => exact htext _ _ (hscalar rfl rfl)
  | equal => exact .inl ⟨_, rfl⟩
  | isEmpty => exact .inl ⟨_, rfl⟩
  | isNull => exact .inl ⟨_, rfl⟩
  | _ => cases h

/-! ## Rules -/

/-- Opposite answers, or one failure over the field, which is missing or has no text. -/
inductive Opposed (vars : Record) (field : String) :
    Except ExprError Value → Except ExprError Value → Prop
  | answers (b : Bool) : Opposed vars field (.ok (.bool b)) (.ok (.bool !b))
  | missing : vars.lookup field = none →
      Opposed vars field (.error (.undefinedVariable field)) (.error (.undefinedVariable field))
  | withoutText {v : Value} (function : String) : vars.lookup field = some v →
      v.isScalar = false →
      Opposed vars field (.error (.badArguments function .notScalar))
        (.error (.badArguments function .notScalar))

theorem LiteralStyle.isScalar_operand (style : LiteralStyle) {v : Value}
    (h : style.keeps v = true) : (style.operand v).isScalar = true := by
  cases style with
  | quoted => rfl
  | typed =>
    cases v with
    | number n => rfl
    | _ => exact h

namespace Leaf

/-- The rule that consists of one faithful comparison has the value of the comparison. -/
theorem evaluate_single {o : CompileOptions} (ho : o.escapes = true) {l : Leaf}
    (h : l.Faithful o.style) (c : Connective) (vars : Record) :
    ∃ s, (RuleGroup.mk c [.leaf l]).compile o = .ok s ∧
      (Predicate.language.evaluate s vars).1 = (l.holds o.style vars).map Value.bool := by
  have hnested : (RuleGroup.mk c [.leaf l]).Nested (Leaf.Readable o.style) 63 :=
    .group (List.cons_ne_nil _ _) (List.forall_mem_singleton.mpr (.leaf h.readable))
  obtain ⟨s, hs, hread⟩ := RuleGroup.ofText_compile ho Predicate.isKnown_language hnested
  refine ⟨s, hs, ?_⟩
  rw [RuleGroup.evaluate_of_ofText vars hread]
  exact Leaf.eval_expr h vars

variable {style : LiteralStyle} {op op' : RuleOp} {f : String} {v : Value}
  (hop : op.opposite? = some op') (h : (Leaf.mk f op v).Faithful style)

include hop h

theorem Faithful.opposite : (Leaf.mk f op' v).Faithful style := by
  obtain ⟨hbuiltIn, hisList, hignores⟩ := RuleOp.kinds_of_opposite hop
  constructor
  · exact h.field
  · exact hbuiltIn
  · intro hlist
    exact h.list (hisList ▸ hlist)
  · intro hlist hvalue
    exact h.scalar (hisList ▸ hlist) (hignores ▸ hvalue)

/-- Read directly, the two comparisons are opposed. -/
theorem Faithful.opposed (vars : Record) :
    Opposed vars f (((Leaf.mk f op v).holds style vars).map Value.bool)
      (((Leaf.mk f op' v).holds style vars).map Value.bool) := by
  obtain ⟨-, hisList, -⟩ := RuleOp.kinds_of_opposite hop
  obtain ⟨w, hw⟩ : ∃ w, w = if op.isList = true then v else style.operand v := ⟨_, rfl⟩
  have hlist : op.isList = true → ∃ items, w = .array items := by
    intro hop
    obtain ⟨items, hvalue, -⟩ := h.list hop
    exact ⟨items, by rw [hw, if_pos hop]; exact hvalue⟩
  have hscalar : op.isList = false → op.ignoresValue = false → w.isScalar = true := by
    intro hop hvalue
    rw [hw, hop, if_neg (by decide)]
    exact style.isScalar_operand (h.scalar hop hvalue)
  simp only [holds, onField, hisList, ← hw]
  cases hlookup : vars.lookup f with
  | none => exact .missing hlookup
  | some u =>
    dsimp only
    rw [RuleOp.test_opposite hop hlist]
    rcases RuleOp.test_cases hop u hlist hscalar with ⟨b, hb⟩ | ⟨hu, function, hfails⟩
    · rw [hb]
      exact .answers b
    · rw [hfails]
      exact .withoutText function hlookup hu

end Leaf

/-- Two rules that differ in an operator and its opposite compile, and their texts are opposed in
every record. -/
theorem Leaf.evaluate_opposed {o : CompileOptions} (ho : o.escapes = true) {op op' : RuleOp}
    (hop : op.opposite? = some op') {f : String} {v : Value}
    (h : (Leaf.mk f op v).Faithful o.style) (c c' : Connective) (vars : Record) :
    ∃ s s', (RuleGroup.mk c [.leaf ⟨f, op, v⟩]).compile o = .ok s ∧
      (RuleGroup.mk c' [.leaf ⟨f, op', v⟩]).compile o = .ok s' ∧
      Opposed vars f (Predicate.language.evaluate s vars).1
        (Predicate.language.evaluate s' vars).1 := by
  obtain ⟨s, hs, hvalue⟩ := evaluate_single ho h c vars
  obtain ⟨s', hs', hvalue'⟩ := evaluate_single ho (h.opposite hop) c' vars
  refine ⟨s, s', hs, hs', ?_⟩
  rw [hvalue, hvalue']
  exact h.opposed hop vars

/-- A quote and a backslash are looked for at the end of a field, which is a list. -/
theorem Leaf.evaluate_opposed_quote :
    CompileOptions.standard.escapes = true ∧ RuleOp.endsWith.opposite? = some .notEndsWith ∧
      (Leaf.mk "n" .endsWith (.string "\"\\")).Faithful .quoted ∧
      ∃ s s', (RuleGroup.mk .and [.leaf ⟨"n", .endsWith, .string "\"\\"⟩]).compile .standard = .ok s ∧
        (RuleGroup.mk .or [.leaf ⟨"n", .notEndsWith, .string "\"\\"⟩]).compile .standard = .ok s' ∧
        Opposed [("n", .array [])] "n" (Predicate.language.evaluate s [("n", .array [])]).1
          (Predicate.language.evaluate s' [("n", .array [])]).1 := by
  have hfaithful : (Leaf.mk "n" .endsWith (.string "\"\\")).Faithful .quoted :=
    ⟨Leaf.plainField_n, by decide, nofun, fun _ _ => rfl⟩
  exact ⟨rfl, rfl, hfaithful, evaluate_opposed (o := .standard) rfl rfl hfaithful .and .or _⟩

end Criteria
