import Mathlib.Data.List.Range
import Criteria.Proofs.Expr.Kinds
import Criteria.Proofs.Value.Integer

/-!
# Ranges

A range counts from one integer to another in steps of one, upwards or downwards, unless it would
have too many elements. Its size is told from the two ends alone, also where they are as far from
each other as integers can be. Something is a member of a range if it is an integer between the
ends; floating numbers and texts never are, whatever they are equal to otherwise.
-/

namespace Criteria

/-- The integers from `a` to `b` in steps of one. -/
structure CountsTo (a b : Int) (ns : List Int) : Prop where
  length : ns.length = (b - a).natAbs + 1
  head : ns.head? = some a
  last : ns.getLast? = some b
  step : ns.IsChain fun m n => n - m = (b - a).sign

/-- Each element is the first one and so many steps toward the other end. -/
theorem intsBetween_eq (a b : Int) :
    intsBetween a b =
      (List.range ((b - a).natAbs + 1)).map fun k : Nat => a + k * (b - a).sign := by
  refine List.map_congr_left fun k hk => ?_
  have hlt := List.mem_range.mp hk
  rcases Int.lt_trichotomy (b - a) 0 with h | h | h
  · rw [Int.sign_eq_neg_one_of_neg h, if_neg (by omega)]
    omega
  · rw [h, Int.sign_zero, if_pos (by omega)]
    omega
  · rw [Int.sign_eq_one_of_pos h, if_pos (by omega)]
    omega

theorem countsTo_intsBetween (a b : Int) : CountsTo a b (intsBetween a b) := by
  rw [intsBetween_eq]
  constructor
  case length => rw [List.length_map, List.length_range]
  case head => simp [List.range_succ_eq_map]
  case last =>
    have hend : ((b - a).natAbs : Int) * (b - a).sign = b - a := by
      rw [Int.mul_comm, Int.sign_mul_natAbs]
    rw [List.range_succ, List.map_append, List.map_singleton, List.getLast?_concat, hend]
    congr 1
    omega
  case step =>
    rw [List.isChain_map, List.isChain_range_succ]
    intro k _
    rw [Int.natCast_succ, Int.add_mul, Int.one_mul]
    omega

theorem mem_intsBetween {a b n : Int} :
    n ∈ intsBetween a b ↔ min a b ≤ n ∧ n ≤ max a b := by
  rw [intsBetween, List.mem_map]
  constructor
  · rintro ⟨k, hk, rfl⟩
    have hlt := List.mem_range.mp hk
    split <;> omega
  · rintro ⟨hlow, hhigh⟩
    refine ⟨(n - a).natAbs, List.mem_range.mpr (by omega), ?_⟩
    split <;> omega

namespace Value

/-- Whether a value is an integer from `low` to `high`. -/
def isIntegerFrom (low high : Int) : Value → Bool
  | .number (.int n _ _) => low ≤ n && n ≤ high
  | _ => false

/-- Only the integer itself is strictly equal to an integer. -/
theorem strictEq_ofInt_iff {n : Int} (hn : Fits n) {v : Value} :
    v.strictEq (.ofInt n) = true ↔ v = .ofInt n := by
  rw [ofInt_of_fits hn]
  cases v with
  | number m =>
    cases m with
    | int m lower upper => simp [strictEq, numberEq]
    | float x finite => simp [strictEq, numberEq]
  | _ => simp [strictEq]

/-- A value is among integers if it is one of them. -/
theorem any_strictEq_intsBetween {a b : Int} (ha : Fits a) (hb : Fits b) (v : Value) :
    ((intsBetween a b).map ofInt).any v.strictEq = v.isIntegerFrom (min a b) (max a b) := by
  rw [Bool.eq_iff_iff, List.any_map, List.any_eq_true]
  constructor
  · rintro ⟨n, hn, heq⟩
    have hfits := fits_of_mem_intsBetween ha hb hn
    rw [(strictEq_ofInt_iff hfits).mp heq, ofInt_of_fits hfits]
    simpa [isIntegerFrom] using mem_intsBetween.mp hn
  · intro h
    cases v with
    | number m =>
      cases m with
      | int n lower upper =>
        have hn : n ∈ intsBetween a b := mem_intsBetween.mpr (by simpa [isIntegerFrom] using h)
        have hfits := fits_of_mem_intsBetween ha hb hn
        exact ⟨n, hn, (strictEq_ofInt_iff hfits).mpr (ofInt_of_fits hfits).symm⟩
      | float x finite => cases h
    | _ => cases h

end Value

/-! ## Ranges in expressions -/

theorem BinaryOp.rangeOf_integers {a b : Int} (ha : Fits a) (hb : Fits b) {x y : Value}
    (hx : x.IsInteger a) (hy : y.IsInteger b) :
    rangeOf x y =
      if maxRangeSize < (b - a).natAbs + 1 then
        .error (.badArguments ".." (.rangeTooLarge ((b - a).natAbs + 1)))
      else .ok (.array ((intsBetween a b).map .ofInt)) := by
  simp only [rangeOf, hx.numeric?, hy.numeric?, Numeric.ofInt_of_fits ha, Numeric.ofInt_of_fits hb]

namespace Expr

variable {functions : List Function} {vars : Record} {l r : Expr}

/-- A range of integers, which are given as numbers or by their digits, is refused just if it would
have too many elements. Otherwise it counts from one to the other, and what is in it are the
integers between them. -/
theorem eval_range {a b : Int} (ha : Fits a) (hb : Fits b) {x y : Value} (hx : x.IsInteger a)
    (hy : y.IsInteger b) (hl : eval functions vars l = .ok x)
    (hr : eval functions vars r = .ok y) :
    (eval functions vars (.binary .range l r) =
        .error (.badArguments ".." (.rangeTooLarge ((b - a).natAbs + 1))) ↔
      maxRangeSize < (b - a).natAbs + 1) ∧
    ((b - a).natAbs + 1 ≤ maxRangeSize → ∃ ns, CountsTo a b ns ∧ (∀ n ∈ ns, Fits n) ∧
      eval functions vars (.binary .range l r) = .ok (.array (ns.map .ofInt)) ∧
      ∀ e v, eval functions vars e = .ok v →
        eval functions vars (.binary .member e (.binary .range l r)) =
          .ok (.bool (v.isIntegerFrom (min a b) (max a b)))) := by
  have hrange : eval functions vars (.binary .range l r) = BinaryOp.rangeOf x y :=
    eval_binary_of_operands rfl (by decide) hl hr
  rw [hrange, BinaryOp.rangeOf_integers ha hb hx hy]
  constructor
  · split
    · next hlarge => exact iff_of_true rfl hlarge
    · next hsmall => exact iff_of_false nofun hsmall
  · intro hsmall
    rw [if_neg (Nat.not_lt.mpr hsmall)]
    refine ⟨_, countsTo_intsBetween a b, fun n => fits_of_mem_intsBetween ha hb, rfl, ?_⟩
    intro e v he
    rw [BinaryOp.rangeOf_integers ha hb hx hy, if_neg (Nat.not_lt.mpr hsmall)] at hrange
    rw [eval_binary_of_operands rfl (by decide) he hrange, BinaryOp.apply, BinaryOp.isMember,
      Value.any_strictEq_intsBetween ha hb]
    rfl

/-- All integers are too many; the three least ones, of which the last is given by its digits, are
a range that has the second one in it and no text. -/
theorem eval_range_least :
    Fits (-2 ^ (63 : Nat)) ∧ Fits (2 ^ (63 : Nat) - 1) ∧ Fits (2 - 2 ^ (63 : Nat)) ∧
      eval [] [("x", .ofInt (-2 ^ (63 : Nat)))]
          (.binary .range (.name "x") (.const (.ofInt (2 ^ (63 : Nat) - 1)))) =
        .error (.badArguments ".." (.rangeTooLarge (2 ^ (64 : Nat)))) ∧
      eval [] [("x", .ofInt (-2 ^ (63 : Nat)))]
          (.binary .member (.const (.ofInt (1 - 2 ^ (63 : Nat))))
          (.binary .range (.const (.string "-9223372036854775806")) (.name "x"))) =
        .ok (.bool true) ∧
      eval [] [("x", .ofInt (-2 ^ (63 : Nat)))]
          (.binary .member (.const (.string "-9223372036854775807"))
          (.binary .range (.const (.string "-9223372036854775806")) (.name "x"))) =
        .ok (.bool false) := by
  have hleast : Fits (-2 ^ (63 : Nat)) := by decide
  have hgreatest : Fits (2 ^ (63 : Nat) - 1) := by decide
  have hthird : Fits (2 - 2 ^ (63 : Nat)) := by decide
  have hx : (Value.ofInt (-2 ^ (63 : Nat))).IsInteger (-2 ^ (63 : Nat)) :=
    Value.isInteger_ofInt (by decide) (by decide)
  have hy : (Value.ofInt (2 ^ (63 : Nat) - 1)).IsInteger (2 ^ (63 : Nat) - 1) :=
    Value.isInteger_ofInt (by decide) (by decide)
  have hdigits : (Value.string "-9223372036854775806").IsInteger (2 - 2 ^ (63 : Nat)) :=
    .digits (by decide) (by decide)
  have hname : eval [] [("x", .ofInt (-2 ^ (63 : Nat)))] (.name "x") =
      .ok (.ofInt (-2 ^ (63 : Nat))) := by
    simp [eval]
  have hconst (v : Value) : eval [] [("x", .ofInt (-2 ^ (63 : Nat)))] (.const v) = .ok v := by
    rw [eval]
  obtain ⟨hlarge, -⟩ := eval_range hleast hgreatest hx hy hname (hconst _)
  obtain ⟨-, hsmall⟩ := eval_range hthird hleast hdigits hx (hconst _) hname
  obtain ⟨ns, -, -, -, hmember⟩ := hsmall (by decide)
  exact ⟨hleast, hgreatest, hthird, hlarge.mpr (by decide), hmember _ _ (hconst _),
    hmember _ _ (hconst _)⟩

end Expr

end Criteria
