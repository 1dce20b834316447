import Criteria.Proofs.Decimal.Plain
import Criteria.Proofs.Expr.Operand
import Criteria.Value.Compare

/-!
# Numbers in text

A number that is written as a string operand and read again need not be the same number: an
integral floating number may come back as an integer, and zero without its sign. It always comes
back as a number of the same size.
-/

namespace Criteria

open Text

namespace Written

theorem exponent_text {e : Option (Bool × List Char)} (h : ∀ e' ∈ e, IsDigits e'.2) :
    Exponent (exponentText e) (e.map exponentValue) := by
  cases e with
  | none => exact .absent
  | some e =>
    obtain ⟨negative, digits⟩ := e
    have hdigits : IsDigits digits := h _ rfl
    cases negative with
    | false => exact .marked (.inl rfl) .plus hdigits
    | true => exact .marked (.inl rfl) .minus hdigits

/-- What is written is a numeral, behind a sign too. -/
theorem isNumeral (negative : Bool) {w : Written} (hw : w.Proper) :
    IsNumeral (Decimal.sign negative ++ w.text) { w.numeral with negative := negative } := by
  obtain ⟨whole, fraction, exponent⟩ := w
  have hmantissa : Mantissa (whole ++ fractionText fraction) whole fraction := by
    cases fraction with
    | none =>
      rw [fractionText, List.append_nil]
      exact .whole hw.whole
    | some digits => exact .point hw.whole (hw.fraction digits rfl).digit
  rw [text, ← List.append_assoc whole]
  exact .intro (Decimal.signMark_sign negative) hmantissa (exponent_text hw.exponent)

/-- A numeral is read as its parts, behind a sign too, and there are no blanks around it. -/
theorem ofText?_text (negative : Bool) {w : Written} (hw : w.Proper) :
    Numeral.ofText? (Decimal.sign negative ++ w.text) =
      some { w.numeral with negative := negative } :=
  Numeral.ofText?_eq_some_iff.mpr ⟨_, padded_self _, isNumeral negative hw⟩

end Written

/-! ## Equal numbers -/

namespace Binary64

theorem compare?_eq {x y : Binary64} (hx : x.isNaN = false) (hy : y.isNaN = false)
    (h : x.key = y.key) : x.compare? y = some .eq := by
  simp [compare?, hx, hy, h]

theorem isNaN_ofRatio (negative : Bool) (num den : Nat) :
    (ofRatio negative num den).isNaN = false :=
  decide_eq_false (Nat.not_lt.mpr (Nat.min_le_right _ _))

theorem isNaN_ofInt (n : Int) : (ofInt n).isNaN = false := isNaN_ofRatio ..

/-- Only the sign of zero gets lost in an integer. -/
theorem key_ofInt (negative : Bool) (n : Nat) :
    (ofInt (if negative then -(n : Int) else n)).key = (ofRatio negative n 1).key := by
  rcases Nat.eq_zero_or_pos n with rfl | hn
  · -- An integer has no negative zero, but both zeros have the key zero.
    have hzero : nearestRank 0 1 = 0 := nearestRank_of_small (by decide)
    have hkey (b : Bool) : (ofRatio b 0 1).key = 0 := by simp [key, ofRatio, ofUnits, hzero]
    rw [hkey]
    cases negative <;> exact hkey false
  · cases negative with
    | false =>
      have hsign : decide ((n : Int) < 0) = false := decide_eq_false (by omega)
      rw [if_neg (by decide), ofInt, hsign, Int.natAbs_natCast]
    | true =>
      have hsign : decide (-(n : Int) < 0) = true := decide_eq_true (by omega)
      rw [if_pos rfl, ofInt, hsign, Int.natAbs_neg, Int.natAbs_natCast]

end Binary64

namespace Numeral

theorem isNaN_toBinary64 (n : Numeral) : n.toBinary64.isNaN = false := by
  rw [toBinary64, Decimal.toBinary64_eq_ofRatio]
  exact Binary64.isNaN_ofRatio ..

theorem toBinary64_of_toNumeric {n : Numeral} {x : Binary64} (h : n.toNumeric = .float x) :
    n.toBinary64 = x := by
  unfold toNumeric Numeric.ofInt at h
  split at h
  · split at h
    · cases h
    · exact Numeric.float.inj h
  · exact Numeric.float.inj h

/-- An integer that a numeral denotes is as large as the floating number that it denotes. -/
theorem key_toNumeric (n : Numeral) : n.toNumeric.toBinary64.key = n.toBinary64.key := by
  obtain ⟨negative, whole, fraction, exponent⟩ := n
  unfold toNumeric
  split
  · next hwhole =>
    obtain ⟨hfraction, hexponent⟩ := Bool.and_eq_true_iff.mp hwhole
    obtain rfl := Option.isNone_iff_eq_none.mp hfraction
    obtain rfl := Option.isNone_iff_eq_none.mp hexponent
    unfold Numeric.ofInt
    split
    · have hvalue : toBinary64 ⟨negative, whole, none, none⟩ =
          .ofRatio negative (digitsValue whole) 1 := by
        simp [toBinary64, Decimal.toBinary64_eq_ofRatio, Decimal.ofParts, Decimal.num, Decimal.den]
      rw [Numeric.toBinary64, hvalue]
      exact Binary64.key_ofInt negative _
    · rfl
  · rfl

theorem isNaN_toNumeric (n : Numeral) : n.toNumeric.toBinary64.isNaN = false := by
  unfold toNumeric Numeric.ofInt
  split
  · split
    · exact Binary64.isNaN_ofInt _
    · exact n.isNaN_toBinary64
  · exact n.isNaN_toBinary64

end Numeral

namespace Binary64

/-- An integral number of moderate size is as large as its integer part. -/
theorem key_truncate {x : Binary64}
    (h : (x.isIntegral && units x.rank < 10 ^ (15 : Nat) * unitsPerOne) = true) :
    (ofInt (x.truncate (-(10 ^ (15 : Nat))) (10 ^ (15 : Nat)))).key = x.key := by
  obtain ⟨hintegral, hsmall⟩ := Bool.and_eq_true_iff.mp h
  obtain ⟨hfinite, hmod⟩ := Bool.and_eq_true_iff.mp hintegral
  obtain ⟨whole, hwhole⟩ : ∃ whole, whole = units x.rank / unitsPerOne := ⟨_, rfl⟩
  have hlt : whole < 10 ^ (15 : Nat) := by
    rw [hwhole, Nat.div_lt_iff_lt_mul unitsPerOne_pos]
    exact of_decide_eq_true hsmall
  have htruncate : x.truncate (-(10 ^ (15 : Nat))) (10 ^ (15 : Nat)) =
      if x.negative then -(whole : Int) else whole := by
    rw [truncate, isNaN_of_isFinite hfinite, if_neg (by decide)]
    dsimp only
    rw [← Int.natCast_ediv, ← hwhole]
    cases x.negative with
    | false =>
      rw [if_neg (by decide)]
      omega
    | true =>
      rw [if_pos rfl]
      omega
  have hunits : whole * unitsPerOne = units x.rank := by
    rw [hwhole, Nat.div_mul_cancel (Nat.dvd_of_mod_eq_zero (eq_of_beq hmod))]
  have hrank := nearestRank_units Nat.one_pos (Nat.le_of_lt (of_decide_eq_true hfinite))
  rw [Nat.mul_one] at hrank
  rw [htruncate, key_ofInt]
  simp only [key, ofRatio, ofUnits, hunits, hrank]

/-- The plain text of a number other than zero is a numeral that is rounded to it. -/
theorem plainText_written {x : Binary64} (hx : x.isFinite = true) (h0 : x.isZero = false) :
    ∃ w : Written, w.Proper ∧ w.numeral.toBinary64 = x.magnitude ∧
      x.plainText = Decimal.sign x.negative ++ w.text := by
  by_cases he : 0 ≤ (x.shortestDigits .up).2
  · obtain ⟨n, hn⟩ := Int.eq_ofNat_of_zero_le he
    obtain ⟨hproper, hvalue, htext⟩ := plainText_of_whole hx h0 hn
    refine ⟨_, hproper, ?_, htext⟩
    rw [Written.toBinary64_of_whole, digitsValue_append, digitsValue_replicate_zero,
      List.length_replicate, Nat.add_zero, hvalue]
  · obtain ⟨w, hw, hvalue, htext⟩ := plainText_of_fraction hx h0 (Int.not_le.mp he)
    exact ⟨w, hw, Numeral.toBinary64_of_toNumeric hvalue, htext⟩

end Binary64

namespace Numeral

/-- The sign of a numeral is that of its floating number. -/
theorem toBinary64_negative (n : Numeral) (negative : Bool) :
    ({ n with negative := negative } : Numeral).toBinary64 =
      { n.toBinary64 with negative := negative } := by
  simp only [toBinary64, Decimal.toBinary64_eq_ofRatio]
  rfl

end Numeral

namespace Numeric

theorem ofText?_eq (negative : Bool) {w : Written} (hw : w.Proper) {s : String}
    (hs : s.toList = Decimal.sign negative ++ w.text) :
    Numeric.ofText? s = some ({ w.numeral with negative := negative } : Numeral).toNumeric := by
  rw [Numeric.ofText?, hs, Written.ofText?_text negative hw]
  rfl

theorem ofText?_intText {n : Int} (h : Fits n) : Numeric.ofText? (intText n) = some (.int n h) := by
  have htext : (intText n).toList =
      Decimal.sign (n < 0) ++ (⟨Nat.toDigits 10 n.natAbs, none, none⟩ : Written).text := by
    rw [intText, String.toList_ofList, Written.text_of_whole]
  have hwhole : (if decide (n < 0) = true then -(n.natAbs : Int) else n.natAbs) = n := by
    by_cases hn : n < 0
    · rw [decide_eq_true hn, if_pos rfl]
      omega
    · rw [decide_eq_false hn, if_neg (by decide)]
      omega
  rw [ofText?_eq _ (Written.proper_toDigits _) htext]
  simp only [Numeral.toNumeric, Numeral.wholeValue, Written.numeral, digitsValue_toDigits,
    Option.isNone_none, Option.map_none, Bool.and_self, if_true, hwhole, Numeric.ofInt, dif_pos h]

theorem compare?_float {x : Binary64} (b : Numeric) :
    (Numeric.float x).compare? b = x.compare? b.toBinary64 := by
  cases b <;> rfl

/-- What is written of a finite number is read as a number of the same size. -/
theorem exists_ofText?_text {a : Numeric} (ha : a.toBinary64.isFinite = true) :
    ∃ b, Numeric.ofText? a.text = some b ∧ a.compare? b = some .eq := by
  cases a with
  | int n fits => exact ⟨_, ofText?_intText fits, by simp [compare?]⟩
  | float x =>
    have hfinite : x.isFinite = true := ha
    have hnan := Binary64.isNaN_of_isFinite hfinite
    by_cases hsmall : (x.isIntegral &&
        Binary64.units x.rank < 10 ^ (15 : Nat) * Binary64.unitsPerOne) = true
    · -- The text is that of an integer, which fits and is read as such.
      obtain ⟨n, hn⟩ : ∃ n, n = x.truncate (-(10 ^ (15 : Nat))) (10 ^ (15 : Nat)) := ⟨_, rfl⟩
      have hbounds : -(10 ^ (15 : Nat)) ≤ n ∧ n ≤ 10 ^ (15 : Nat) :=
        hn ▸ x.truncate_mem (by decide) (by decide)
      have hfits : Fits n := ⟨by omega, by omega⟩
      have htext : (Numeric.float x).text = intText n := by
        rw [text, Binary64.scalarText, if_pos hsmall, ← hn]
        rfl
      refine ⟨_, by rw [htext]; exact ofText?_intText hfits, ?_⟩
      rw [compare?_float]
      have hkey := Binary64.key_truncate hsmall
      rw [← hn] at hkey
      exact Binary64.compare?_eq hnan (Binary64.isNaN_ofInt n) hkey.symm
    · -- The text reads back, whether as a floating number or as an integer.
      have h0 : x.isZero = false :=
        Bool.eq_false_iff.mpr fun h => hsmall (Binary64.isSmall_of_isZero h)
      obtain ⟨w, hw, hvalue, hplain⟩ := Binary64.plainText_written hfinite h0
      have htext : (Numeric.float x).text.toList = Decimal.sign x.negative ++ w.text := by
        rw [text, Binary64.scalarText, if_neg hsmall, String.toList_ofList, hplain]
      refine ⟨_, ofText?_eq _ hw htext, ?_⟩
      rw [compare?_float]
      refine Binary64.compare?_eq hnan (Numeral.isNaN_toNumeric _) ?_
      rw [Numeral.key_toNumeric, Numeral.toBinary64_negative, hvalue]
      rfl

end Numeric

end Criteria
