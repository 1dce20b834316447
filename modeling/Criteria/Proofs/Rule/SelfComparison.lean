import Criteria.Proofs.Rule.Membership
import Criteria.Proofs.Value.Order

/-!
# Comparisons of a value with itself

A scalar that is written into a rule and read again is loosely equal to what it was, and neither
greater nor less where it has an order, though it may have become a string, a floating number or
an integer on the way.
-/

namespace Criteria

namespace Value

/-- Numbers and strings, the values that have an order. -/
def isOrdered : Value → Bool
  | .number _ | .string _ => true
  | _ => false

/-- The second value is loosely equal to the first one, and neither greater nor less where the
first one has an order. -/
structure Matches (v w : Value) : Prop where
  looseEq : v.looseEq w = true
  compare? : v.isOrdered = true → v.compare? w = some .eq

theorem matches_of_compare? {v w : Value} (h : v.compare? w = some .eq) : Matches v w :=
  ⟨looseEq_of_compare? h, fun _ => h⟩

theorem matches_string (s : String) : Matches (.string s) (.string s) :=
  matches_of_compare? (compare?_string_self s)

/-- A number matches what has a number of its size. -/
theorem matches_of_numeric? {n : Number} {w : Value} {a : Numeric} (hw : w.numeric? = some a)
    (h : n.toNumeric.compare? a = some .eq) : Matches (.number n) w := by
  have hn : (Value.number n).numeric? = some n.toNumeric := rfl
  exact matches_of_compare? ((compare?_of_numeric? hn hw).trans h)

/-- A scalar matches its text. -/
theorem matches_text {v : Value} {s : String} (h : v.text? = some s) : Matches v (.string s) := by
  cases v with
  | null =>
    obtain rfl : "" = s := Option.some.inj h
    exact ⟨rfl, nofun⟩
  | bool b =>
    obtain rfl : (if b then "1" else "") = s := Option.some.inj h
    exact ⟨by cases b <;> rfl, nofun⟩
  | number n =>
    obtain rfl : n.toNumeric.text = s := Option.some.inj h
    obtain ⟨a, ha, hcompare⟩ := Numeric.exists_ofText?_text n.isFinite_toNumeric
    exact matches_of_numeric? (w := .string n.toNumeric.text) ha hcompare
  | string t =>
    obtain rfl : t = s := Option.some.inj h
    exact matches_string t
  | _ => cases h

/-- A scalar matches itself. -/
theorem matches_self {v : Value} (h : v.isScalar = true) : Matches v v := by
  cases v with
  | null => exact ⟨rfl, nofun⟩
  | bool b => exact ⟨by cases b <;> rfl, nofun⟩
  | number n => exact matches_of_compare? (compare?_number_self n)
  | string s => exact matches_string s
  | _ => cases h

/-- An integer matches the floating number that it is rounded to. -/
theorem matches_ofInt {n : Int} (lower : -2 ^ (63 : Nat) ≤ n) (upper : n < 2 ^ (64 : Nat)) :
    Matches (.number (.int n lower upper)) (.ofFloat (.ofInt n)) := by
  have hfinite : (Binary64.ofInt n).isFinite = true := Binary64.isFinite_ofInt (by omega)
  rw [ofFloat_eq hfinite]
  refine matches_of_numeric? (a := .float (.ofInt n)) rfl ?_
  -- Where the integer fits, it takes part as a floating number here.
  have hcompare : (Binary64.ofInt n).compare? (.ofInt n) = some .eq :=
    Binary64.compare?_eq (Binary64.isNaN_ofInt n) (Binary64.isNaN_ofInt n) rfl
  rw [Number.toNumeric, Numeric.ofInt]
  split <;> exact hcompare

end Value

namespace LiteralStyle

/-- The value of a literal matches the scalar that is written. -/
theorem exists_eval_literal (style : LiteralStyle) {v : Value} (hv : v.isScalar = true) :
    ∃ w, (∀ functions vars, (style.literal v).eval functions vars = .ok w) ∧ v.Matches w := by
  cases style with
  | quoted =>
    obtain ⟨s, hs⟩ := v.exists_text? hv
    refine ⟨.string s, fun _ _ => ?_, Value.matches_text hs⟩
    rw [literal, hs, Option.getD_some, Expr.eval]
  | typed =>
    by_cases hkeeps : typed.keeps v = true
    · exact ⟨v, fun _ _ => Expr.eval_typedExpr hkeeps, Value.matches_self hv⟩
    · cases v with
      | number n =>
        cases n with
        | int n lower upper =>
          have hsize : 2 ^ (63 : Nat) ≤ n.natAbs := by
            have hlarge : ¬ n.natAbs < 2 ^ (63 : Nat) := fun h => hkeeps (decide_eq_true h)
            omega
          have hitem : typed.literal (.number (.int n lower upper)) =
              typed.item (.number (.int n lower upper)) := rfl
          refine ⟨_, fun _ _ => ?_, Value.matches_ofInt lower upper⟩
          rw [hitem]
          exact eval_item_unfit lower upper hsize
        | float x finite => exact absurd rfl hkeeps
      | _ => exact absurd hv hkeeps

end LiteralStyle

namespace Leaf

/-- A scalar that a field is compared with is equal to itself, and a number or a string is
neither less nor greater than itself. -/
theorem answers_itself {o : CompileOptions} (ho : o.escapes = true) {f : String}
    (hf : PlainField f) {v : Value} (hv : v.isScalar = true) :
    (Leaf.mk f .equal v).Answers o [(f, v)] true ∧
      (Leaf.mk f .notEqual v).Answers o [(f, v)] false ∧
      (v.isOrdered = true →
        (Leaf.mk f .lessOrEqual v).Answers o [(f, v)] true ∧
        (Leaf.mk f .greaterOrEqual v).Answers o [(f, v)] true ∧
        (Leaf.mk f .less v).Answers o [(f, v)] false ∧
        (Leaf.mk f .greater v).Answers o [(f, v)] false) := by
  obtain ⟨w, hw, hmatches⟩ := o.style.exists_eval_literal hv
  have hanswers {op : RuleOp} {b : Bool} {sign : BinaryOp} (hop : op ∈ RuleOp.builtIn)
      (hlist : op.isList = false) (hsign : sign.precedence = 20)
      (hexpr : (Leaf.mk f op v).expr o.style = .binary sign (.name f) (o.style.literal v))
      (hvalue : sign.apply v w = .ok (.bool b)) : (Leaf.mk f op v).Answers o [(f, v)] b := by
    refine answers_of_eval ho ⟨hf, hop, fun h => absurd h (by simp [hlist]), fun _ _ => hv⟩ ?_
    rw [hexpr, Expr.eval_compare hsign (hw _ _), List.lookup_cons_self]
    exact hvalue
  refine ⟨hanswers (by decide) rfl rfl rfl ?_, hanswers (by decide) rfl rfl rfl ?_,
    fun hordered => ?_⟩
  · rw [BinaryOp.apply, hmatches.looseEq]
  · rw [BinaryOp.apply, hmatches.looseEq]
    rfl
  · have hcompare (sign : String) : BinaryOp.compareAs sign v w = .ok .eq := by
      rw [BinaryOp.compareAs, hmatches.compare? hordered]
    refine ⟨hanswers (by decide) rfl rfl rfl ?_, hanswers (by decide) rfl rfl rfl ?_,
      hanswers (by decide) rfl rfl rfl ?_, hanswers (by decide) rfl rfl rfl ?_⟩
    all_goals
      rw [BinaryOp.apply, hcompare]
      rfl

/-- The least integer, which is read as a floating number in the typed style. -/
theorem answers_itself_least :
    (Value.number .least).isOrdered = true ∧
      (Leaf.mk "n" .equal (.number .least)).Answers ⟨.typed, true⟩ [("n", .number .least)] true ∧
      (Leaf.mk "n" .notEqual (.number .least)).Answers ⟨.typed, true⟩ [("n", .number .least)]
        false ∧
      (Leaf.mk "n" .lessOrEqual (.number .least)).Answers ⟨.typed, true⟩ [("n", .number .least)]
        true ∧
      (Leaf.mk "n" .less (.number .least)).Answers ⟨.typed, true⟩ [("n", .number .least)] false := by
  obtain ⟨hequal, hnotEqual, hordered⟩ :=
    answers_itself (o := ⟨.typed, true⟩) rfl plainField_n (v := .number .least) rfl
  obtain ⟨hlessOrEqual, -, hless, -⟩ := hordered rfl
  exact ⟨rfl, hequal, hnotEqual, hlessOrEqual, hless⟩

end Leaf

end Criteria
