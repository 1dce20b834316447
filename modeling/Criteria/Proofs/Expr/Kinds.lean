import Criteria.Proofs.Expr.Chain
import Criteria.Proofs.Expr.Literal

/-!
# What operators give

The operators but `??`, which passes its operands on, give values of one kind each: truth values,
numbers, strings or arrays of integers. A calculation on floating numbers may have no finite result,
as its exact value may be too large or none at all. There is null in place of it, and nowhere else.
-/

namespace Criteria

/-- The kinds of values that operators give. -/
inductive ResultKind where
  | truth
  | number
  | text
  | integers
  deriving DecidableEq, Repr

/-- The value is of the kind. -/
inductive ResultKind.Has : ResultKind → Value → Prop
  | truth (b : Bool) : Has .truth (.bool b)
  | number (n : Number) : Has .number (.number n)
  | text (s : String) : Has .text (.string s)
  | integers {ns : List Int} : (∀ n ∈ ns, Fits n) → Has .integers (.array (ns.map .ofInt))

theorem ResultKind.Has.ne_null {o : ResultKind} {v : Value} (h : o.Has v) : v ≠ .null := by
  rintro rfl
  cases h

/-- The value is of the kind `o`, or it is null, which is so exactly where the result is `lost`. -/
structure Typed (o : ResultKind) (lost : Prop) (v : Value) : Prop where
  has : v ≠ .null → o.Has v
  null : v = .null ↔ lost

theorem ResultKind.Has.typed {o : ResultKind} {v : Value} (h : o.Has v) {lost : Prop}
    (hlost : ¬ lost) : Typed o lost v :=
  ⟨fun _ => h, iff_of_false h.ne_null hlost⟩

theorem Typed.congr {o : ResultKind} {lost lost' : Prop} {v : Value} (h : Typed o lost v)
    (hlost : lost ↔ lost') : Typed o lost' v :=
  ⟨h.has, h.null.trans hlost⟩

theorem Numeric.has_toValue {n : Numeric} (h : n.toValue ≠ .null) :
    ResultKind.number.Has n.toValue := by
  cases n with
  | int n hn =>
    rw [toValue_int]
    exact .number _
  | float x =>
    have hx : x.isFinite = true := by simpa [toValue_eq_null] using h
    rw [toValue, ofFloat_eq hx]
    exact .number _

theorem Numeric.typed_toValue (n : Numeric) :
    Typed .number (∃ x, n = .float x ∧ x.isFinite = false) n.toValue :=
  ⟨has_toValue, toValue_eq_null⟩

theorem Numeric.toValue_ofInt_ne_null {n : Int} {x : Binary64} (hx : x.isFinite = true) :
    (ofInt n x).toValue ≠ .null := by
  rw [ne_eq, toValue_eq_null, ofInt]
  split <;> simp [hx]

theorem Numeral.typed_toValue (u : Numeral) :
    Typed .number (Binary64.overflow * u.decimal.den ≤ u.decimal.num) u.toNumeric.toValue :=
  ⟨Numeric.has_toValue, u.toValue_toNumeric_eq_null⟩

/-! ## Integers -/

theorem has_ofInt {n : Int} (h : Fits n) : ResultKind.number.Has (.ofInt n) := by
  rw [Value.ofInt_of_fits h]
  exact .number _

theorem Numeric.fits_toInt (n : Numeric) : Fits n.toInt := by
  cases n with
  | int n h => exact h
  | float x =>
    obtain ⟨lower, upper⟩ : -2 ^ (63 : Nat) ≤ x.truncate (-2 ^ (63 : Nat)) (2 ^ (63 : Nat) - 1) ∧
        x.truncate (-2 ^ (63 : Nat)) (2 ^ (63 : Nat) - 1) ≤ 2 ^ (63 : Nat) - 1 :=
      x.truncate_mem (by decide) (by decide)
    exact ⟨lower, Int.lt_of_le_sub_one upper⟩

theorem Numeric.fits_bitwise (op : Int64 → Int64 → Int64) (a b : Numeric) :
    Fits (a.bitwise op b) :=
  ⟨Int64.le_toInt _, Int64.toInt_lt _⟩

theorem fits_of_mem_intsBetween {a b n : Int} (ha : Fits a) (hb : Fits b)
    (hn : n ∈ intsBetween a b) : Fits n := by
  obtain ⟨k, hk, rfl⟩ := List.mem_map.mp hn
  have hlt := List.mem_range.mp hk
  obtain ⟨ha, ha'⟩ := ha
  obtain ⟨hb, hb'⟩ := hb
  split <;> constructor <;> omega

/-! ## Operators on values -/

namespace UnaryOp

def resultKind : UnaryOp → ResultKind
  | .not => .truth
  | .negate | .plus => .number

/-- The operand of a sign is a number that is not finite. -/
def Lost (op : UnaryOp) (v : Value) : Prop :=
  op ≠ .not ∧ ∃ x, v.operand? = some (.float x) ∧ x.isFinite = false

theorem typed_apply (op : UnaryOp) {a v : Value} (h : op.apply a = .ok v) :
    Typed op.resultKind (op.Lost a) v := by
  cases op with
  | not =>
    cases h
    exact (ResultKind.Has.truth _).typed fun hlost => hlost.1 rfl
  | plus =>
    rw [apply] at h
    rcases ha : a.operand? with _ | n <;> simp only [ha] at h <;> cases h
    exact n.typed_toValue.congr (by simp [Lost, ha])
  | negate =>
    rw [apply] at h
    rcases ha : a.operand? with _ | ⟨i, hi⟩ | x <;> simp only [ha] at h <;> cases h
    · have hne := Numeric.toValue_ofInt_ne_null (n := -i) hi.moderate.neg.finite
      exact (Numeric.has_toValue hne).typed (by simp [Lost, ha])
    · have hfinite : x.neg.isFinite = x.isFinite := rfl
      exact (Numeric.float x.neg).typed_toValue.congr (by simp [Lost, ha, hfinite])

end UnaryOp

namespace BinaryOp

/-- What all values of an operator are; `??` has no kind of its own. -/
def resultKind? : BinaryOp → Option ResultKind
  | .coalesce => none
  | .bitOr | .bitXor | .bitAnd | .add | .subtract | .multiply | .divide | .modulo | .power =>
    some .number
  | .concat => some .text
  | .range => some .integers
  | .or | .and | .equal | .identical | .notEqual | .notIdentical | .less | .greater | .lessOrEqual
  | .greaterOrEqual | .member | .notMember | .fitsPattern | .contains | .startsWith | .endsWith =>
    some .truth

/-- The calculation of an operator that takes floating numbers for what they are. -/
def calculation? : BinaryOp → Option (Numeric → Numeric → Numeric)
  | .add => some .add
  | .subtract => some .subtract
  | .multiply => some .multiply
  | .divide => some .divide
  | .power => some .power
  | _ => none

/-- The result of the calculation is infinite or not a number. -/
def Lost (op : BinaryOp) (l r : Value) : Prop :=
  ∃ f a b x, op.calculation? = some f ∧ l.operand? = some a ∧ r.operand? = some b ∧
    f a b = .float x ∧ x.isFinite = false

theorem not_lost {op : BinaryOp} (hop : op.calculation? = none) (l r : Value) : ¬ op.Lost l r := by
  rintro ⟨f, a, b, x, hf, -⟩
  rw [hop] at hf
  cases hf

variable {l r v : Value}

theorem onTexts_eq_ok {α : Type} {operator : String} {f : String → String → Except ExprError α}
    {x : α} (h : onTexts operator f l r = .ok x) : ∃ s t, f s t = .ok x := by
  unfold onTexts at h
  split at h
  · exact ⟨_, _, h⟩
  · cases h

theorem onNumbers_eq_ok {α : Type} {operator : String} {f : Numeric → Numeric → Except ExprError α}
    {x : α} (h : onNumbers operator f l r = .ok x) :
    ∃ a b, l.operand? = some a ∧ r.operand? = some b ∧ f a b = .ok x := by
  unfold onNumbers at h
  split at h
  · next ha hb => exact ⟨_, _, ha, hb, h⟩
  · cases h

/-- Operators that calculate nothing lose nothing. -/
theorem typed_of_has {op : BinaryOp} (hop : op.calculation? = none) {o : ResultKind}
    (h : o.Has v) : Typed o (op.Lost l r) v :=
  h.typed (not_lost hop l r)

/-- The value of a calculation is its result. -/
theorem typed_of_calculation {op : BinaryOp} {f : Numeric → Numeric → Numeric}
    (hf : op.calculation? = some f) {a b : Numeric} (ha : l.operand? = some a)
    (hb : r.operand? = some b) : Typed .number (op.Lost l r) (f a b).toValue :=
  (f a b).typed_toValue.congr (by simp [Lost, hf, ha, hb])

theorem has_rangeOf (h : rangeOf l r = .ok v) : ResultKind.integers.Has v := by
  unfold rangeOf at h
  split at h
  · next ha _ hb _ _ =>
    dsimp only at h
    split at h <;> cases h
    exact .integers fun n hn => fits_of_mem_intsBetween ha hb hn
  · cases h

theorem typed_apply {op : BinaryOp} {o : ResultKind} (hop : op.resultKind? = some o)
    (h : op.apply l r = .ok v) : Typed o (op.Lost l r) v := by
  cases op with
  | coalesce => cases hop
  | or | and | equal | notEqual | identical | notIdentical =>
    cases hop
    cases h
    exact typed_of_has rfl (.truth _)
  | less | greater | lessOrEqual | greaterOrEqual | member | notMember =>
    cases hop
    obtain ⟨_, -, h⟩ := Expr.bind_eq_ok h
    cases h
    exact typed_of_has rfl (.truth _)
  | fitsPattern =>
    cases hop
    obtain ⟨s, t, h⟩ := onTexts_eq_ok h
    split at h <;> cases h
    exact typed_of_has rfl (.truth _)
  | contains | startsWith | endsWith =>
    cases hop
    obtain ⟨s, t, h⟩ := onTexts_eq_ok h
    cases h
    exact typed_of_has rfl (.truth _)
  | concat =>
    cases hop
    obtain ⟨s, t, h⟩ := onTexts_eq_ok h
    cases h
    exact typed_of_has rfl (.text _)
  | range =>
    cases hop
    exact typed_of_has rfl (has_rangeOf h)
  | bitOr | bitXor | bitAnd =>
    cases hop
    obtain ⟨a, b, -, -, h⟩ := onNumbers_eq_ok h
    cases h
    exact typed_of_has rfl (has_ofInt (Numeric.fits_bitwise _ a b))
  | modulo =>
    cases hop
    obtain ⟨a, b, -, -, h⟩ := onNumbers_eq_ok h
    split at h
    · cases h
    · next hzero =>
      cases h
      exact typed_of_has rfl (has_ofInt (fits_tmod _ b.fits_toInt hzero))
  | divide =>
    cases hop
    obtain ⟨a, b, ha, hb, h⟩ := onNumbers_eq_ok h
    split at h <;> cases h
    exact typed_of_calculation rfl ha hb
  | add | subtract | multiply | power =>
    cases hop
    obtain ⟨a, b, ha, hb, h⟩ := onNumbers_eq_ok h
    cases h
    exact typed_of_calculation rfl ha hb

end BinaryOp

namespace Expr

/-! ## Expressions -/

variable {functions : List Function} {vars : Record}

theorem typed_eval_binary {op : BinaryOp} {o : ResultKind} (hop : op.resultKind? = some o)
    {l r : Expr} {v : Value} (h : eval functions vars (.binary op l r) = .ok v) :
    Typed o (∃ a b, eval functions vars l = .ok a ∧ eval functions vars r = .ok b ∧ op.Lost a b)
      v := by
  cases hlogical : op.isLogical with
  | true =>
    -- The right operand may have no value, as the left one may decide; but nothing is calculated.
    have hnone : op.calculation? = none := by cases op <;> first | rfl | cases hlogical
    obtain rfl : o = .truth := by cases op <;> cases hop <;> first | rfl | cases hlogical
    rw [eval_pair hlogical] at h
    cases hchain : evalChain functions vars (op == .or) [l, r] with
    | error e => simp [hchain, Except.map] at h
    | ok b =>
      obtain rfl : Value.bool b = v := by simpa [hchain, Except.map] using h
      exact (ResultKind.Has.truth b).typed fun ⟨a, b, _, _, hlost⟩ => op.not_lost hnone a b hlost
  | false =>
    have hne : op ≠ .coalesce := by
      rintro rfl
      cases hop
    rw [eval_binary_of_not_isLogical hlogical hne] at h
    obtain ⟨a, ha, h⟩ := bind_eq_ok h
    obtain ⟨b, hb, h⟩ := bind_eq_ok h
    exact (BinaryOp.typed_apply hop h).congr (by simp [ha, hb])

theorem typed_eval_unary {op : UnaryOp} {e : Expr} {v : Value}
    (h : eval functions vars (.unary op e) = .ok v) :
    Typed op.resultKind (∃ a, eval functions vars e = .ok a ∧ op.Lost a) v := by
  rw [eval] at h
  obtain ⟨a, ha, h⟩ := bind_eq_ok h
  exact (op.typed_apply h).congr (by simp [ha])

theorem has_eval_logical {op : BinaryOp} {es : List Expr} {v : Value}
    (h : eval functions vars (.logical op es) = .ok v) : ResultKind.truth.Has v := by
  rw [eval] at h
  obtain ⟨b, -, h⟩ := bind_eq_ok h
  cases h
  exact .truth b

/-- The numbers of a text stand in the tree in their order. Each of them is a numeral of the source
and stands for a number, unless the value of the numeral is rounded to infinity. -/
structure Kept (source : String) (text : TokenList) (e : Expr) : Prop where
  stand : Stand (numbers (lexemesOf text.tokens)) e.data
  numeral : ∀ n ∈ numbers (lexemesOf text.tokens), ∃ u, NumeralIn source.toList u ∧
    n = u.toNumeric ∧ Typed .number (Binary64.overflow * u.decimal.den ≤ u.decimal.num) n.toValue

theorem kept_of_ofText {known : String → Bool} {source : String} {e : Expr}
    (h : ofText known source = .ok e) :
    ∃ text, Token.ofText source = .ok text ∧ Kept source text e := by
  obtain ⟨text, -, htext, -⟩ := derives_of_ofText h
  refine ⟨text, htext, stand_of_ofText htext h, fun n hn => ?_⟩
  obtain ⟨u, hu, rfl⟩ := (Lexed.of_scan htext).exists_numeral (mem_numbers hn)
  exact ⟨u, hu, rfl, u.typed_toValue⟩

/-- The greatest finite number. -/
def greatest : Binary64 := ⟨false, Binary64.infinityRank - 1, by decide⟩

theorem eval_double_greatest :
    eval [] [("x", .ofFloat greatest)] (.binary .add (.name "x") (.name "x")) = .ok .null := by
  have hx : eval [] [("x", .ofFloat greatest)] (.name "x") = .ok (.ofFloat greatest) := by
    simp [eval]
  have hfinite : greatest.isFinite = true := by decide
  have hsum : (greatest.add greatest).isFinite = false := by decide +kernel
  have hnull : (Numeric.float (greatest.add greatest)).toValue = .null :=
    Numeric.toValue_eq_null.mpr ⟨_, rfl, hsum⟩
  rw [eval_binary_of_operands rfl (by decide) hx hx, ofFloat_eq hfinite, ← hnull]
  rfl

/-- Whatever operators give is of their kind, but for null where a calculation has no finite
result; and numerals are numbers, but for null where they are rounded to infinity. -/
theorem eval_kinds (functions : List Function) (vars : Record) :
    (∀ op o l r v, BinaryOp.resultKind? op = some o →
      eval functions vars (.binary op l r) = .ok v →
        Typed o (∃ a b, eval functions vars l = .ok a ∧ eval functions vars r = .ok b ∧
          op.Lost a b) v) ∧
    (∀ op es v, eval functions vars (.logical op es) = .ok v → ResultKind.truth.Has v) ∧
    (∀ op e v, eval functions vars (.unary op e) = .ok v →
      Typed op.resultKind (∃ a, eval functions vars e = .ok a ∧ op.Lost a) v) ∧
    ∀ source e, ofText (Function.isKnown functions) source = .ok e →
      ∃ text, Token.ofText source = .ok text ∧ Kept source text e := by
  refine ⟨?_, ?_, ?_, ?_⟩
  · intro op o l r v hop h
    exact typed_eval_binary hop h
  · intro op es v h
    exact has_eval_logical h
  · intro op e v h
    exact typed_eval_unary h
  · intro source e h
    exact kept_of_ofText h

/-- A sum that is lost, a sign before a text, and a numeral that is lost. -/
theorem eval_kinds_greatest :
    (∃ a b, eval [] [("x", .ofFloat greatest)] (.name "x") = .ok a ∧
      eval [] [("x", .ofFloat greatest)] (.name "x") = .ok b ∧ BinaryOp.add.Lost a b) ∧
    eval [] [("x", .ofFloat greatest)] (.unary .negate (.const (.string "7"))) =
      .ok (.ofInt (-7)) ∧ ResultKind.number.Has (.ofInt (-7)) ∧
    ∃ text, Token.ofText "1e400" = .ok text ∧ Kept "1e400" text (.const .null) := by
  obtain ⟨hbinary, -, hunary, hread⟩ := eval_kinds [] [("x", .ofFloat greatest)]
  have hsum := hbinary .add .number _ _ _ rfl eval_double_greatest
  have heval : eval [] [("x", .ofFloat greatest)] (.unary .negate (.const (.string "7"))) =
      .ok (.ofInt (-7)) := by
    rw [eval, eval]
    rfl
  have hnegation := hunary _ _ _ heval
  exact ⟨hsum.null.mp rfl, heval, hnegation.has (by decide),
    hread "1e400" _ (ofText_number lexed_large)⟩

/-- The sum of the greatest finite number with itself is null, and so is a numeral as a constant. -/
theorem eval_not_number :
    eval [] [("x", .ofFloat greatest)] (.binary .add (.name "x") (.name "x")) = .ok .null ∧
      ofText (Function.isKnown []) "1e400" = .ok (.const .null) :=
  ⟨eval_double_greatest, ofText_number lexed_large⟩

end Expr

end Criteria
