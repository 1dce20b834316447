import Criteria.Proofs.Binary64.Integral
import Criteria.Proofs.Decimal.Layout

/-!
# Plain numerals

In plain text an integral floating number has no point, so that its numeral may be read as an
integer. The plain text of a finite number denotes the number where this cannot happen: where
the number is no integer, since no integer is rounded to it, and from `2 ^ 63` on, where
integers do not fit. Nothing is claimed of the numbers between.
-/

namespace Criteria

open Text Decimal

namespace Decimal

theorem toBinary64_natural (n : Nat) : (⟨false, n, 0⟩ : Decimal).toBinary64 = .ofInt n := by
  have hsign : decide ((n : Int) < 0) = false := by simp
  rw [toBinary64_eq_ofRatio, Binary64.ofInt, Int.natAbs_natCast, hsign]
  simp [num, den]

end Decimal

namespace Written

theorem toBinary64_of_whole (digits : List Char) :
    (⟨digits, none, none⟩ : Written).numeral.toBinary64 = .ofInt (digitsValue digits) := by
  have hparts : (⟨digits, none, none⟩ : Written).numeral.toBinary64 =
      (ofParts false digits [] 0).toBinary64 := rfl
  rw [hparts, ← toBinary64_natural, ofParts, List.append_nil]
  rfl

/-- Digits alone denote an integer, or the floating number nearest to it. -/
theorem toNumeric_of_whole (digits : List Char) :
    (⟨digits, none, none⟩ : Written).numeral.toNumeric =
      .ofInt (digitsValue digits) (.ofInt (digitsValue digits)) := by
  have hvalue := toBinary64_of_whole digits
  simp only [numeral, Option.map_none] at hvalue
  simp only [numeral, Numeral.toNumeric, Numeral.wholeValue, Option.isNone_none, Option.map_none,
    Bool.and_self, hvalue, if_true, Bool.false_eq_true, if_false]

/-- An integer beyond the ones of 64 bits with a sign is read as a floating number. -/
theorem toNumeric_of_not_fits {n : Nat} (h : ¬ Fits n) :
    (⟨Nat.toDigits 10 n, none, none⟩ : Written).numeral.toNumeric = .float (.ofInt n) := by
  rw [toNumeric_of_whole, digitsValue_toDigits, Numeric.ofInt, dif_neg h]

end Written

namespace Binary64

open Written

/-- A finite number that is not an integer of magnitude below `2 ^ 63`. -/
structure OutsideIntegers (x : Binary64) : Prop where
  finite : x.isFinite = true
  outside : x.isIntegral = false ∨ 2 ^ (63 : Nat) * unitsPerOne ≤ units x.rank

/-! ## Numbers from `2 ^ 63` on -/

theorem nearestRank_two_pow :
    nearestRank (2 ^ (63 : Nat) * unitsPerOne) 1 = 1086 * 2 ^ (52 : Nat) := by
  decide +kernel

theorem rank_of_large {x : Binary64} (hx : x.isFinite = true)
    (h : 2 ^ (63 : Nat) * unitsPerOne ≤ units x.rank) : 1086 * 2 ^ (52 : Nat) ≤ x.rank := by
  have hrank := nearestRank_units Nat.one_pos (Nat.le_of_lt (of_decide_eq_true hx))
  rw [Nat.mul_one] at hrank
  rw [← nearestRank_two_pow, ← hrank]
  exact nearestRank_mono 1 h

theorem le_units_of_rank {k : Nat} (h : 1086 * 2 ^ (52 : Nat) ≤ k) :
    2 ^ (63 : Nat) * unitsPerOne ≤ units k := by
  obtain ⟨j, hj⟩ : ∃ j, j = 1074 := ⟨_, rfl⟩
  have hk : 12 + j ≤ k / 2 ^ (52 : Nat) := by
    rw [Nat.le_div_iff_mul_le (Nat.two_pow_pos 52), hj]
    exact h
  have hpow : 2 ^ (63 : Nat) * 2 ^ j ≤ 2 ^ (52 : Nat) * 2 ^ (k / 2 ^ (52 : Nat) - 1) := by
    rw [← Nat.pow_add, ← Nat.pow_add]
    exact Nat.pow_le_pow_right (by decide) (by omega)
  rw [units_of_ge (by omega), unitsPerOne, ← hj]
  exact Nat.le_trans hpow (Nat.mul_le_mul_right _ (Nat.le_add_right _ _))

/-- Integers from `2 ^ 63` on are floating numbers of this size. -/
theorem outsideIntegers_ofInt {n : Int} (h : 2 ^ (63 : Nat) ≤ n) (upper : n < 2 ^ (64 : Nat)) :
    (ofInt n).OutsideIntegers where
  finite := isFinite_ofInt (by omega)
  outside := by
    refine .inr (le_units_of_rank ?_)
    rw [← nearestRank_two_pow]
    exact nearestRank_mono 1 (Nat.mul_le_mul_right _ (by omega))

/-- The digits of `2 ^ 63` that read back as it are those of a greater number. -/
theorem shortestDigits_two_pow (negative : Bool) :
    2 ^ (63 : Nat) ≤
      digitsValue (shortestDigits .up ⟨negative, 1086 * 2 ^ (52 : Nat), by decide⟩).1 *
        10 ^ (shortestDigits .up ⟨negative, 1086 * 2 ^ (52 : Nat), by decide⟩).2.toNat := by
  cases negative <;> decide +kernel

/-! ## Numbers that read back from an integer -/

theorem ofInt_of_readsBack {digits n : Nat} {x : Binary64}
    (hx : ReadsBack ⟨x.negative, digits, n⟩ x) : ofInt (digits * 10 ^ n : Nat) = x.magnitude := by
  have hzeros := equal_of_zeros false 0 (rfl : digits * 10 ^ n = digits * 10 ^ n)
  rw [Int.zero_add] at hzeros
  rw [← toBinary64_natural, hzeros.toBinary64_eq]
  exact toBinary64_magnitude hx

theorem rank_of_magnitude {D : Nat} {x : Binary64} (h : ofInt D = x.magnitude) :
    nearestRank (D * unitsPerOne) 1 = x.rank :=
  congrArg Binary64.rank h

/-- No integer that fits reads back as such a number. -/
theorem OutsideIntegers.not_fits {x : Binary64} (h : x.OutsideIntegers) {n : Nat}
    (hn : (x.shortestDigits .up).2 = n)
    (hback : ofInt (digitsValue (x.shortestDigits .up).1 * 10 ^ n : Nat) = x.magnitude) :
    ¬ Fits (digitsValue (x.shortestDigits .up).1 * 10 ^ n : Nat) := by
  obtain ⟨D, hD⟩ : ∃ D, D = digitsValue (x.shortestDigits .up).1 * 10 ^ n := ⟨_, rfl⟩
  rw [← hD] at hback ⊢
  have hrank := rank_of_magnitude hback
  intro hfits
  rcases h.outside with hfraction | hlarge
  · have hmod := units_nearestRank_mod D
    rw [hrank] at hmod
    simp [isIntegral, h.finite, hmod] at hfraction
  · have hlt : D < 2 ^ (63 : Nat) := by
      have := hfits.2
      omega
    -- Such an integer is rounded to `2 ^ 63` at most, whose own digits are greater.
    have hle := nearestRank_mono 1 (Nat.mul_le_mul_right unitsPerOne (Nat.le_of_lt hlt))
    rw [hrank, nearestRank_two_pow] at hle
    have heq := Nat.le_antisymm hle (rank_of_large h.finite hlarge)
    obtain ⟨negative, rank, hrank63⟩ := x
    obtain rfl : rank = 1086 * 2 ^ (52 : Nat) := heq
    have hdigits := shortestDigits_two_pow negative
    rw [hn, Int.toNat_natCast, ← hD] at hdigits
    omega

theorem OutsideIntegers.isZero {x : Binary64} (h : x.OutsideIntegers) : x.isZero = false := by
  rw [Bool.eq_false_iff]
  intro h0
  have hunits : units x.rank = 0 := congrArg units (eq_of_beq h0)
  rcases h.outside with hfraction | hlarge
  · simp [isIntegral, h.finite, hunits] at hfraction
  · have hpos : 0 < 2 ^ (63 : Nat) * unitsPerOne := Nat.mul_pos (by decide) unitsPerOne_pos
    omega

/-! ## Plain text -/

/-- Without digits behind a point, the numeral is that of an integer which is rounded to the
number. -/
theorem plainText_of_whole {x : Binary64} (hx : x.isFinite = true) (h0 : x.isZero = false) {n : Nat}
    (hn : (x.shortestDigits .up).2 = n) :
    (⟨(x.shortestDigits .up).1 ++ List.replicate n '0', none, none⟩ : Written).Proper ∧
      ofInt (digitsValue (x.shortestDigits .up).1 * 10 ^ n : Nat) = x.magnitude ∧
      x.plainText = sign x.negative ++
        (⟨(x.shortestDigits .up).1 ++ List.replicate n '0', none, none⟩ : Written).text := by
  obtain ⟨hd, hback⟩ := shortestDigits_spec .up hx h0
  rw [hn] at hback
  refine ⟨⟨hd.append_zeros n, by simp, by simp⟩, ofInt_of_readsBack hback, ?_⟩
  rw [plainText_eq hx h0, text_of_whole]
  simp [positional, hn]

/-- Otherwise the numeral has a point. -/
theorem plainText_of_fraction {x : Binary64} (hx : x.isFinite = true) (h0 : x.isZero = false)
    (he : (x.shortestDigits .up).2 < 0) :
    ∃ w : Written, w.Proper ∧ w.numeral.toNumeric = .float x.magnitude ∧
      x.plainText = sign x.negative ++ w.text := by
  obtain ⟨hd, hback⟩ := shortestDigits_spec .up hx h0
  obtain ⟨w, hw, htext⟩ := positional_denotes hd (x.shortestDigits .up).2
  refine ⟨w, hw.proper, toNumeric_of_denotes hw hback, ?_⟩
  simp only [plainText_eq hx h0, htext, positional, if_neg (Int.not_le.mpr he)]

theorem OutsideIntegers.scalarText {x : Binary64} (h : x.OutsideIntegers) :
    x.scalarText = x.plainText := by
  have hnot : (x.isIntegral && decide (units x.rank < 10 ^ (15 : Nat) * unitsPerOne)) = false := by
    rcases h.outside with hfraction | hlarge
    · rw [hfraction, Bool.false_and]
    · have hle : 10 ^ (15 : Nat) * unitsPerOne ≤ units x.rank :=
        Nat.le_trans (Nat.mul_le_mul_right _ (by decide)) hlarge
      rw [decide_eq_false (Nat.not_lt.mpr hle), Bool.and_false]
  simp only [Binary64.scalarText, hnot, Bool.false_eq_true, if_false]

/-- As a string operand such a number is a numeral that denotes it, behind its sign. -/
theorem OutsideIntegers.scalarText_denotes {x : Binary64} (h : x.OutsideIntegers) :
    ∃ w : Written, w.Proper ∧ w.numeral.toNumeric = .float x.magnitude ∧
      x.scalarText = sign x.negative ++ w.text := by
  rw [h.scalarText]
  by_cases he : 0 ≤ (x.shortestDigits .up).2
  · obtain ⟨n, hn⟩ := Int.eq_ofNat_of_zero_le he
    obtain ⟨hproper, hvalue, htext⟩ := plainText_of_whole h.finite h.isZero hn
    refine ⟨_, hproper, ?_, htext⟩
    rw [toNumeric_of_whole, digitsValue_append, digitsValue_replicate_zero, List.length_replicate,
      Nat.add_zero, Numeric.ofInt, dif_neg (h.not_fits hn hvalue), hvalue]
  · exact plainText_of_fraction h.finite h.isZero (Int.not_le.mp he)

end Binary64

end Criteria
