import Criteria.Proofs.Binary64.Range
import Criteria.Proofs.Expr.Failure
import Criteria.Proofs.Rule.Evaluation
import Criteria.Proofs.Value.Integer

/-!
# Arithmetic on integers

Sums, differences, products and negations of integers of 64 bits are exact where they fit, and so
is a quotient where the division leaves no rest. What does not fit turns into a floating number,
which is always finite: nothing wraps and nothing is lost to null. A rest always fits. Division
and rest by zero are the only errors.
-/

namespace Criteria

namespace Fits

variable {n : Int}

theorem lt_two_pow (h : Fits n) : n < 2 ^ (64 : Nat) := Int.lt_trans h.2 (by decide)

theorem natAbs_le (h : Fits n) : n.natAbs ≤ 2 ^ (63 : Nat) := by
  obtain ⟨lower, upper⟩ := h
  omega

/-- The nearest floating number of an integer of 64 bits. -/
theorem moderate (h : Fits n) : (Binary64.ofInt n).Moderate :=
  Binary64.moderate_ofInt h.natAbs_le

end Fits

namespace Value

theorem ofInt_of_fits {n : Int} (h : Fits n) : ofInt n = .number (.int n h.1 h.lt_two_pow) :=
  ofInt_eq h.1 h.lt_two_pow

theorem ofInt_inj {m n : Int} (hm : Fits m) : ofInt m = ofInt n ↔ m = n := by
  refine ⟨fun h => ?_, fun h => by rw [h]⟩
  rw [ofInt_of_fits hm, ofInt] at h
  split at h <;> cases h
  rfl

theorem ofFloat_ne_ofInt {x : Binary64} {n : Int} (h : x.isFinite = true ∨ Fits n) :
    ofFloat x ≠ ofInt n := by
  intro heq
  rcases h with hx | hn
  · rw [ofFloat_eq hx, ofInt] at heq
    split at heq <;> cases heq
  · rw [ofInt_of_fits hn, ofFloat] at heq
    split at heq <;> cases heq

end Value

/-! ## Results -/

/-- The result is the integer `n` where it fits, else the floating number `x`. -/
structure ExactOr (n : Int) (x : Binary64) (result : Except ExprError Value) : Prop where
  exact : result = .ok (.ofInt n) ↔ Fits n
  float : ¬ Fits n → result = .ok (.ofFloat x) ∧ x.isFinite = true

/-- The result is the quotient of `x` by `y`: an integer where there is one that fits, else a
floating number, and an error if `y` is zero. -/
structure IsQuotient (x y : Int) (result : Except ExprError Value) : Prop where
  zero : result = .error .divisionByZero ↔ y = 0
  exact : ∀ q, result = .ok (.ofInt q) ↔ y ≠ 0 ∧ Fits q ∧ q * y = x
  float : y ≠ 0 → (∀ q, Fits q → q * y ≠ x) →
    result = .ok (.ofFloat ((Binary64.ofInt x).div (.ofInt y))) ∧
      ((Binary64.ofInt x).div (.ofInt y)).isFinite = true

/-- The result is what the division of `x` by `y` toward zero leaves, with the sign of `x`, and an
error if `y` is zero. -/
structure IsRemainder (x y : Int) (result : Except ExprError Value) : Prop where
  zero : result = .error .divisionByZero ↔ y = 0
  exact : y ≠ 0 → ∃ m, result = .ok (.ofInt m) ∧ Fits m ∧ m = x - x.tdiv y * y ∧
    m.natAbs < y.natAbs ∧ (m = 0 ∨ m.sign = x.sign)

theorem exactOr_ofInt {n : Int} {x : Binary64} (hx : x.isFinite = true) :
    ExactOr n x (.ok (Numeric.ofInt n x).toValue) where
  exact := by
    refine ⟨fun h => Decidable.byContradiction fun hn => ?_, fun hn => ?_⟩
    · rw [Numeric.ofInt_of_not_fits hn] at h
      exact Value.ofFloat_ne_ofInt (.inl hx) (Except.ok.inj h)
    · rw [Numeric.ofInt_of_fits hn]
      rfl
  float hn := by
    rw [Numeric.ofInt_of_not_fits hn]
    exact ⟨rfl, hx⟩

/-! ## Operators on integers -/

variable {x y : Int}

namespace Numeric

theorem divide_of_mul_eq {q : Int} (hx : Fits x) (hy : Fits y) (hzero : y ≠ 0) (hq : Fits q)
    (h : q * y = x) : (int x hx).divide (int y hy) = int q hq := by
  subst h
  have hrest : (q * y).tmod y = 0 := Int.mul_tmod_left ..
  have hquotient : (q * y).tdiv y = q := Int.mul_tdiv_cancel q hzero
  rw [divide]
  simp only [if_pos hrest, hquotient, ofInt_of_fits hq]

theorem divide_of_mul_ne (hx : Fits x) (hy : Fits y) (h : ∀ q, Fits q → q * y ≠ x) :
    (int x hx).divide (int y hy) = float ((Binary64.ofInt x).div (.ofInt y)) := by
  rw [divide]
  split
  · next hrest =>
    have hfits : ¬ Fits (x.tdiv y) := fun hq =>
      h _ hq (Int.tdiv_mul_cancel_of_tmod_eq_zero hrest)
    exact ofInt_of_not_fits hfits _
  · rfl

end Numeric

theorem tmod_eq_zero_or_sign (x y : Int) : x.tmod y = 0 ∨ (x.tmod y).sign = x.sign := by
  rw [Int.sign_tmod, ← Int.dvd_iff_tmod_eq_zero]
  by_cases h : y ∣ x
  · exact .inl h
  · exact .inr (if_neg h)

theorem natAbs_tmod_lt (x : Int) (hzero : y ≠ 0) : (x.tmod y).natAbs < y.natAbs := by
  rw [Int.natAbs_tmod]
  exact Nat.mod_lt _ (Int.natAbs_pos.mpr hzero)

theorem fits_tmod (x : Int) (hy : Fits y) (hzero : y ≠ 0) : Fits (x.tmod y) := by
  have hless := natAbs_tmod_lt x hzero
  have hle := hy.natAbs_le
  constructor <;> omega

namespace BinaryOp

theorem onNumbers_ofInt {α : Type} (operator : String) (f : Numeric → Numeric → Except ExprError α)
    (hx : Fits x) (hy : Fits y) :
    onNumbers operator f (.ofInt x) (.ofInt y) = f (.int x hx) (.int y hy) := by
  simp only [onNumbers, operand?_ofInt hx, operand?_ofInt hy]

variable (hx : Fits x) (hy : Fits y)

include hx hy

theorem exactOr_add :
    ExactOr (x + y) ((Binary64.ofInt x).add (.ofInt y)) (add.apply (.ofInt x) (.ofInt y)) := by
  simp only [apply, onNumbers_ofInt _ _ hx hy]
  exact exactOr_ofInt (hx.moderate.isFinite_add hy.moderate)

theorem exactOr_subtract :
    ExactOr (x - y) ((Binary64.ofInt x).sub (.ofInt y)) (subtract.apply (.ofInt x) (.ofInt y)) := by
  simp only [apply, onNumbers_ofInt _ _ hx hy]
  exact exactOr_ofInt (hx.moderate.isFinite_sub hy.moderate)

theorem exactOr_multiply :
    ExactOr (x * y) ((Binary64.ofInt x).mul (.ofInt y)) (multiply.apply (.ofInt x) (.ofInt y)) := by
  simp only [apply, onNumbers_ofInt _ _ hx hy]
  exact exactOr_ofInt (hx.moderate.isFinite_mul hy.moderate)

theorem isQuotient_divide : IsQuotient x y (divide.apply (.ofInt x) (.ofInt y)) := by
  have hzero : (Numeric.int y hy).toBinary64.isZero = decide (y = 0) := Binary64.isZero_ofInt y
  simp only [apply, onNumbers_ofInt _ _ hx hy, hzero, decide_eq_true_iff]
  by_cases hy0 : y = 0
  · rw [if_pos hy0]
    exact ⟨by simp [hy0], by simp [hy0], fun hne => absurd hy0 hne⟩
  rw [if_neg hy0]
  by_cases hexact : ∃ q, Fits q ∧ q * y = x
  · obtain ⟨q, hq, hmul⟩ := hexact
    rw [Numeric.divide_of_mul_eq hx hy hy0 hq hmul]
    refine ⟨by simp [hy0], fun q' => ?_, fun _ hnone => absurd hmul (hnone q hq)⟩
    rw [Numeric.toValue, Except.ok.injEq, Value.ofInt_inj hq]
    constructor
    · rintro rfl
      exact ⟨hy0, hq, hmul⟩
    · rintro ⟨-, -, hmul'⟩
      exact Int.eq_of_mul_eq_mul_right hy0 (hmul.trans hmul'.symm)
  · have hnone : ∀ q, Fits q → q * y ≠ x := fun q hq hmul => hexact ⟨q, hq, hmul⟩
    have hfinite := hx.moderate.isFinite_div hy.moderate (Binary64.unitsPerOne_le_units_ofInt hy0)
    rw [Numeric.divide_of_mul_ne hx hy hnone]
    refine ⟨by simp [hy0], fun q => ?_, fun _ _ => ⟨rfl, hfinite⟩⟩
    constructor
    · intro h
      exact absurd (Except.ok.inj h) (Value.ofFloat_ne_ofInt (.inl hfinite))
    · rintro ⟨-, hq, hmul⟩
      exact absurd hmul (hnone q hq)

theorem isRemainder_modulo : IsRemainder x y (modulo.apply (.ofInt x) (.ofInt y)) := by
  simp only [apply, onNumbers_ofInt _ _ hx hy]
  by_cases hy0 : y = 0
  · rw [if_pos (show (Numeric.int y hy).toInt = 0 from hy0)]
    exact ⟨by simp [hy0], fun hne => absurd hy0 hne⟩
  · rw [if_neg (show (Numeric.int y hy).toInt ≠ 0 from hy0)]
    refine ⟨by simp [hy0], fun _ => ⟨x.tmod y, rfl, fits_tmod x hy hy0, ?_, natAbs_tmod_lt x hy0,
      tmod_eq_zero_or_sign x y⟩⟩
    rw [Int.tmod_def, Int.mul_comm]

end BinaryOp

theorem UnaryOp.exactOr_negate (hx : Fits x) :
    ExactOr (-x) (Binary64.ofInt x).neg (negate.apply (.ofInt x)) := by
  simp only [apply, operand?_ofInt hx]
  exact exactOr_ofInt hx.moderate.neg.finite

/-! ## Expressions -/

namespace Expr

variable {functions : List Function} {vars : Record} {l r : Expr}

theorem eval_binary_of_operands {op : BinaryOp} (hop : op.isLogical = false) (hc : op ≠ .coalesce)
    {v w : Value} (hl : eval functions vars l = .ok v) (hr : eval functions vars r = .ok w) :
    eval functions vars (.binary op l r) = op.apply v w := by
  rw [eval_binary_of_not_isLogical hop hc, hl, hr, ok_bind, ok_bind]

theorem eval_unary_of_operand {v : Value} (op : UnaryOp) (hl : eval functions vars l = .ok v) :
    eval functions vars (.unary op l) = op.apply v := by
  rw [eval, hl, ok_bind]

/-- What is calculated from two integers is the exact result wherever that is an integer that fits,
else a finite floating number. The only error is a division by zero. -/
theorem eval_arithmetic (hl : eval functions vars l = .ok (.ofInt x))
    (hr : eval functions vars r = .ok (.ofInt y)) (hx : Fits x) (hy : Fits y) :
    ExactOr (x + y) ((Binary64.ofInt x).add (.ofInt y))
        (eval functions vars (.binary .add l r)) ∧
      ExactOr (x - y) ((Binary64.ofInt x).sub (.ofInt y))
        (eval functions vars (.binary .subtract l r)) ∧
      ExactOr (x * y) ((Binary64.ofInt x).mul (.ofInt y))
        (eval functions vars (.binary .multiply l r)) ∧
      ExactOr (-x) (Binary64.ofInt x).neg (eval functions vars (.unary .negate l)) ∧
      IsQuotient x y (eval functions vars (.binary .divide l r)) ∧
      IsRemainder x y (eval functions vars (.binary .modulo l r)) := by
  have happly {op : BinaryOp} (hop : op.isLogical = false) (hc : op ≠ .coalesce) :
      eval functions vars (.binary op l r) = op.apply (.ofInt x) (.ofInt y) :=
    eval_binary_of_operands hop hc hl hr
  rw [happly rfl (by decide), happly rfl (by decide), happly rfl (by decide),
    happly rfl (by decide), happly rfl (by decide), eval_unary_of_operand .negate hl]
  exact ⟨BinaryOp.exactOr_add hx hy, BinaryOp.exactOr_subtract hx hy,
    BinaryOp.exactOr_multiply hx hy, UnaryOp.exactOr_negate hx, BinaryOp.isQuotient_divide hx hy,
    BinaryOp.isRemainder_modulo hx hy⟩

/-- The least integer and minus one: the quotient does not fit, and the rest is zero. -/
theorem eval_arithmetic_least :
    Fits (-2 ^ (63 : Nat)) ∧ Fits (-1) ∧
      eval [] [("x", .ofInt (-2 ^ (63 : Nat)))]
          (.binary .divide (.name "x") (.const (.ofInt (-1)))) =
        .ok (.ofFloat ((Binary64.ofInt (-2 ^ (63 : Nat))).div (.ofInt (-1)))) ∧
      eval [] [("x", .ofInt (-2 ^ (63 : Nat)))]
          (.binary .modulo (.name "x") (.const (.ofInt (-1)))) =
        .ok (.ofInt 0) := by
  have hx : Fits (-2 ^ (63 : Nat)) := by decide
  have hy : Fits (-1) := by decide
  have hl : eval [] [("x", .ofInt (-2 ^ (63 : Nat)))] (.name "x") =
      .ok (.ofInt (-2 ^ (63 : Nat))) := by
    simp [eval]
  have hr : eval [] [("x", .ofInt (-2 ^ (63 : Nat)))] (.const (.ofInt (-1))) =
      .ok (.ofInt (-1)) := by
    rw [eval]
  obtain ⟨-, -, -, -, hquotient, hrest⟩ := eval_arithmetic hl hr hx hy
  have hnone : ∀ q, Fits q → q * (-1) ≠ -2 ^ (63 : Nat) := by
    rintro q ⟨-, upper⟩ hq
    omega
  obtain ⟨m, hm, -, hvalue, -⟩ := hrest.exact (by decide)
  have hzero : m = 0 := hvalue.trans (by decide)
  exact ⟨hx, hy, (hquotient.float (by decide) hnone).1, by rw [hm, hzero]⟩

end Expr

end Criteria
