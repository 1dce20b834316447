import Criteria.Proofs.Value.Numeral

/-!
# Text that counts as a number

A string takes part in arithmetic and comparisons as a number if it is a numeral, blanks at its two
ends apart. It is an integer if the numeral has neither point nor exponent and the integer fits, and
otherwise the floating number that the text is.
-/

namespace Criteria

open Text

namespace Numeral

/-- The numeral is written like an integer, and the integer fits. -/
def DenotesInteger (n : Numeral) : Prop :=
  n.fraction = none ∧ n.exponent = none ∧ Fits n.wholeValue

theorem toNumeric_of_integer {n : Numeral} (hfraction : n.fraction = none)
    (hexponent : n.exponent = none) (fits : Fits n.wholeValue) :
    n.toNumeric = .int n.wholeValue fits := by
  have hwhole : (n.fraction.isNone && n.exponent.isNone) = true := by rw [hfraction, hexponent]; rfl
  rw [toNumeric, if_pos hwhole, Numeric.ofInt, dif_pos fits]

theorem toNumeric_of_not_integer {n : Numeral} (h : ¬ n.DenotesInteger) :
    n.toNumeric = .float n.toBinary64 := by
  unfold toNumeric
  split
  · next hwhole =>
    obtain ⟨hfraction, hexponent⟩ := Bool.and_eq_true_iff.mp hwhole
    have hfits : ¬ Fits n.wholeValue := fun hfits =>
      h ⟨Option.isNone_iff_eq_none.mp hfraction, Option.isNone_iff_eq_none.mp hexponent, hfits⟩
    exact dif_neg hfits
  · rfl

theorem toNumeric_eq_int_iff {n : Numeral} {i : Int} {fits : Fits i} :
    n.toNumeric = .int i fits ↔ n.fraction = none ∧ n.exponent = none ∧ n.wholeValue = i := by
  constructor
  · intro h
    by_cases hinteger : n.DenotesInteger
    · obtain ⟨hfraction, hexponent, hfits⟩ := hinteger
      rw [toNumeric_of_integer hfraction hexponent hfits] at h
      exact ⟨hfraction, hexponent, Numeric.int.inj h⟩
    · rw [toNumeric_of_not_integer hinteger] at h
      cases h
  · intro h
    obtain ⟨hfraction, hexponent, rfl⟩ := h
    exact toNumeric_of_integer hfraction hexponent fits

end Numeral

/-- The number of a text is that of the numeral in it. -/
theorem Numeric.ofText?_of_isNumeral {s : String} {t : List Char} {n : Numeral}
    (hpadded : Padded s.toList t) (hnumeral : IsNumeral t n) :
    Numeric.ofText? s = some n.toNumeric := by
  rw [Numeric.ofText?, Numeral.ofText?_eq_some_iff.mpr ⟨t, hpadded, hnumeral⟩]
  rfl

/-- Exactly the numerals count as numbers, blanks around them apart: as the integer if there is
neither point nor exponent and it fits, and otherwise as the floating number that is read from the
text, which there always is. The text of an integer is read as that integer. -/
theorem Numeric.ofText?_numerals (s : String) :
    ((Numeric.ofText? s).isSome = true ↔ ∃ t n, Padded s.toList t ∧ IsNumeral t n) ∧
      (∀ t n, Padded s.toList t → IsNumeral t n →
        (∀ i fits, Numeric.ofText? s = some (.int i fits) ↔
          n.fraction = none ∧ n.exponent = none ∧ n.wholeValue = i) ∧
        ∃ x, Binary64.ofText? t = some x ∧
          (¬ (n.fraction = none ∧ n.exponent = none ∧ Fits n.wholeValue) →
            Numeric.ofText? s = some (.float x))) ∧
      ∀ i fits, Numeric.ofText? (intText i) = some (.int i fits) := by
  refine ⟨?_, ?_, fun i fits => ofText?_intText fits⟩
  · rw [Numeric.ofText?, Option.isSome_map, Option.isSome_iff_exists]
    constructor
    · intro h
      obtain ⟨n, hn⟩ := h
      obtain ⟨t, ht⟩ := Numeral.ofText?_eq_some_iff.mp hn
      exact ⟨t, n, ht⟩
    · intro h
      obtain ⟨t, n, ht⟩ := h
      exact ⟨n, Numeral.ofText?_eq_some_iff.mpr ⟨t, ht⟩⟩
  · intro t n hpadded hnumeral
    rw [ofText?_of_isNumeral hpadded hnumeral]
    constructor
    · intro i fits
      rw [Option.some_inj]
      exact Numeral.toNumeric_eq_int_iff
    · refine ⟨n.toBinary64, hnumeral.ofText?, fun hnot => ?_⟩
      rw [Numeral.toNumeric_of_not_integer hnot]

/-- The least integer, between an ideographic space and a line feed. -/
theorem Numeric.ofText?_numerals_least :
    Padded "\u3000-9223372036854775808\n".toList "-9223372036854775808".toList ∧
      IsNumeral "-9223372036854775808".toList ⟨true, "9223372036854775808".toList, none, none⟩ ∧
      Numeric.ofText? "\u3000-9223372036854775808\n" =
        some (.int (-2 ^ (63 : Nat)) (by decide)) := by
  have hpadded : Padded "\u3000-9223372036854775808\n".toList "-9223372036854775808".toList :=
    ⟨['\u3000'], ['\n'], by decide, List.forall_mem_singleton.mpr rfl,
      List.forall_mem_singleton.mpr rfl⟩
  have hnumeral : IsNumeral "-9223372036854775808".toList
      ⟨true, "9223372036854775808".toList, none, none⟩ :=
    Numeral.read?_eq_some_iff.mp (by decide)
  obtain ⟨-, hspec, -⟩ := ofText?_numerals "\u3000-9223372036854775808\n"
  obtain ⟨hint, -⟩ := hspec _ _ hpadded hnumeral
  exact ⟨hpadded, hnumeral, (hint _ _).mpr ⟨rfl, rfl, by decide⟩⟩

end Criteria
