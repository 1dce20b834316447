import Criteria.Proofs.Binary64.Error
import Criteria.Proofs.Value.Order

/-!
# Integers as numbers and in text

An integer of the data format is a number or stands in a text by its decimal digits, which makes no
difference to equality and order. Both are exact on integers of 64 bits with a sign. The ones above
are floating numbers to the language, and it cannot tell all of them from their neighbours: two
integers of which one is that large may be taken for equal where they are not more than 2048 apart.
They are never taken in reverse.
-/

namespace Criteria

namespace Numeric

theorem toBinary64_ofInt (n : Int) : (ofInt n (.ofInt n)).toBinary64 = .ofInt n := by
  unfold ofInt
  split <;> rfl

theorem ofInt_of_fits {n : Int} (h : Fits n) (x : Binary64) : ofInt n x = .int n h := dif_pos h

theorem ofInt_of_not_fits {n : Int} (h : ¬ Fits n) (x : Binary64) : ofInt n x = .float x :=
  dif_neg h

/-- The digits of an integer denote what the number does. -/
theorem ofText?_intText_of_le {n : Int} (lower : -2 ^ (63 : Nat) ≤ n) :
    Numeric.ofText? (intText n) = some (ofInt n (.ofInt n)) := by
  by_cases h : Fits n
  · rw [ofText?_intText h, ofInt_of_fits h]
  · have hpos : 0 ≤ n := Int.not_lt.mp fun hneg => h ⟨lower, by omega⟩
    obtain ⟨k, rfl⟩ := Int.eq_ofNat_of_zero_le hpos
    have htext : (intText k).toList =
        Decimal.sign false ++ (⟨Nat.toDigits 10 k, none, none⟩ : Written).text := by
      have hsign : decide ((k : Int) < 0) = false := decide_eq_false (by omega)
      rw [intText, String.toList_ofList, Written.text_of_whole, hsign, Int.natAbs_natCast]
    rw [ofText?_eq false (Written.proper_toDigits k) htext, ofInt_of_not_fits h]
    exact congrArg some (Written.toNumeric_of_not_fits h)

end Numeric

namespace Value

/-- The integer `n`, as a number or by its decimal digits. -/
inductive IsInteger (n : Int) : Value → Prop
  | number (lower : -2 ^ (63 : Nat) ≤ n) (upper : n < 2 ^ (64 : Nat)) :
      IsInteger n (.number (.int n lower upper))
  | digits (lower : -2 ^ (63 : Nat) ≤ n) (upper : n < 2 ^ (64 : Nat)) :
      IsInteger n (.string (intText n))

variable {m n : Int} {v w : Value}

theorem isInteger_ofInt (lower : -2 ^ (63 : Nat) ≤ n) (upper : n < 2 ^ (64 : Nat)) :
    IsInteger n (.ofInt n) := by
  rw [ofInt, dif_pos ⟨lower, upper⟩]
  exact .number lower upper

theorem IsInteger.natAbs_lt (h : v.IsInteger n) : n.natAbs < 2 ^ (64 : Nat) := by
  cases h <;> omega

theorem IsInteger.numeric? (h : v.IsInteger n) :
    v.numeric? = some (.ofInt n (.ofInt n)) := by
  cases h with
  | number lower upper => rfl
  | digits lower upper => exact Numeric.ofText?_intText_of_le lower

/-- How two integers are ordered: exactly where both have 64 bits with a sign, else like the
floating numbers nearest to them. -/
structure Ordered (m n : Int) (o : Ordering) : Prop where
  exact : Fits m → Fits n → o = compare m n
  rounded : ¬ (Fits m ∧ Fits n) → (Binary64.ofInt m).compare? (.ofInt n) = some o
  kept : o = compare m n ∨ o = .eq
  apart : 2048 < (m - n).natAbs → o = compare m n

theorem compare_key_ofInt (m n : Int) :
    compare (Binary64.ofInt m).key (Binary64.ofInt n).key = compare m n ∨
      compare (Binary64.ofInt m).key (Binary64.ofInt n).key = .eq := by
  rcases Int.lt_trichotomy m n with hlt | rfl | hgt
  · have hle := Binary64.key_ofInt_mono (Int.le_of_lt hlt)
    rw [Int.compare_eq_lt.mpr hlt, Int.compare_eq_lt, Int.compare_eq_eq]
    omega
  · exact .inr Std.ReflCmp.compare_self
  · have hle := Binary64.key_ofInt_mono (Int.le_of_lt hgt)
    rw [Int.compare_eq_gt.mpr hgt, Int.compare_eq_gt, Int.compare_eq_eq]
    omega

theorem ordered_of_fits (hm : Fits m) (hn : Fits n) : Ordered m n (compare m n) where
  exact := fun _ _ => rfl
  rounded := fun h => absurd ⟨hm, hn⟩ h
  kept := .inl rfl
  apart := fun _ => rfl

theorem ordered_of_not_fits (hm : m.natAbs < 2 ^ (64 : Nat)) (hn : n.natAbs < 2 ^ (64 : Nat))
    (h : ¬ (Fits m ∧ Fits n)) :
    Ordered m n (compare (Binary64.ofInt m).key (Binary64.ofInt n).key) where
  exact := fun hm hn => absurd ⟨hm, hn⟩ h
  rounded := fun _ =>
    Binary64.compare?_of_not_isNaN (Binary64.isNaN_ofInt m) (Binary64.isNaN_ofInt n)
  kept := compare_key_ofInt m n
  apart := by
    intro hfar
    apply (compare_key_ofInt m n).resolve_right
    intro heq
    have hnear := Binary64.natAbs_sub_le_of_key hm hn (Int.compare_eq_eq.mp heq)
    omega

theorem compare?_ofInt_of_not_fits (h : ¬ (Fits m ∧ Fits n)) :
    (Numeric.ofInt m (.ofInt m)).compare? (.ofInt n (.ofInt n)) =
      (Binary64.ofInt m).compare? (.ofInt n) := by
  by_cases hm : Fits m
  · have hn : ¬ Fits n := fun hn => h ⟨hm, hn⟩
    rw [Numeric.ofInt_of_fits hm, Numeric.ofInt_of_not_fits hn]
    rfl
  · rw [Numeric.ofInt_of_not_fits hm, Numeric.compare?_float, Numeric.toBinary64_ofInt]

theorem compare?_integers (hv : v.IsInteger m) (hw : w.IsInteger n) :
    ∃ o, Ordered m n o ∧ v.compare? w = some o := by
  rw [compare?_of_numeric? hv.numeric? hw.numeric?]
  by_cases h : Fits m ∧ Fits n
  · obtain ⟨hm, hn⟩ := h
    rw [Numeric.ofInt_of_fits hm, Numeric.ofInt_of_fits hn]
    exact ⟨_, ordered_of_fits hm hn, rfl⟩
  · rw [compare?_ofInt_of_not_fits h]
    have hordered := ordered_of_not_fits hv.natAbs_lt hw.natAbs_lt h
    exact ⟨_, hordered, hordered.rounded h⟩

/-- However two integers are given, there is one order of them, from which equality follows. -/
theorem compareAs_looseEq_integers (hv : v.IsInteger m) (hw : w.IsInteger n) :
    ∃ o, Ordered m n o ∧ (∀ operator, BinaryOp.compareAs operator v w = .ok o) ∧
      v.looseEq w = (o == .eq) := by
  obtain ⟨o, hordered, hcompare⟩ := compare?_integers hv hw
  exact ⟨o, hordered, compareAs_of_compare? hcompare, looseEq_of_compare? hcompare⟩

/-- A number and digits that are far enough from each other. -/
theorem compareAs_looseEq_integers_apart :
    IsInteger (2 ^ (63 : Nat)) (.ofInt (2 ^ (63 : Nat))) ∧
      IsInteger (2 ^ (63 : Nat) + 2049) (.string "9223372036854777857") ∧
      BinaryOp.compareAs "<" (.ofInt (2 ^ (63 : Nat))) (.string "9223372036854777857") = .ok .lt ∧
      looseEq (.ofInt (2 ^ (63 : Nat))) (.string "9223372036854777857") = false := by
  have hnumber : IsInteger (2 ^ (63 : Nat)) (.ofInt (2 ^ (63 : Nat))) :=
    isInteger_ofInt (by decide) (by decide)
  have hdigits : IsInteger (2 ^ (63 : Nat) + 2049) (.string "9223372036854777857") :=
    .digits (by decide) (by decide)
  obtain ⟨o, hordered, hcompare, hequal⟩ := compareAs_looseEq_integers hnumber hdigits
  obtain rfl : o = .lt := hordered.apart (by decide)
  exact ⟨hnumber, hdigits, hcompare "<", hequal⟩

/-- Neighbours that are taken for equal, whether they are numbers, digits or one of each. -/
theorem looseEq_neighbours :
    (2 ^ (63 : Nat) : Int) < 2 ^ (63 : Nat) + 1 ∧
      looseEq (.ofInt (2 ^ (63 : Nat))) (.ofInt (2 ^ (63 : Nat) + 1)) = true ∧
      looseEq (.ofInt (2 ^ (63 : Nat))) (.string "9223372036854775809") = true ∧
      looseEq (.string "9223372036854775808") (.string "9223372036854775809") = true ∧
      BinaryOp.compareAs "<" (.ofInt (2 ^ (63 : Nat))) (.ofInt (2 ^ (63 : Nat) + 1)) = .ok .eq ∧
      BinaryOp.compareAs "<" (.ofInt (2 ^ (63 : Nat))) (.string "9223372036854775809") = .ok .eq ∧
      BinaryOp.compareAs "<" (.string "9223372036854775808") (.string "9223372036854775809") =
        .ok .eq := by
  have hcompare {v w : Value} (hv : v.IsInteger (2 ^ (63 : Nat)))
      (hw : w.IsInteger (2 ^ (63 : Nat) + 1)) :
      v.compare? w = some .eq := by
    rw [compare?_of_numeric? hv.numeric? hw.numeric?, compare?_ofInt_of_not_fits (by decide)]
    decide +kernel
  have hnumber : IsInteger (2 ^ (63 : Nat)) (.ofInt (2 ^ (63 : Nat))) :=
    isInteger_ofInt (by decide) (by decide)
  have hnumbers := hcompare hnumber (isInteger_ofInt (by decide) (by decide))
  have hdigits : IsInteger (2 ^ (63 : Nat)) (.string "9223372036854775808") :=
    .digits (by decide) (by decide)
  have hnext : IsInteger (2 ^ (63 : Nat) + 1) (.string "9223372036854775809") :=
    .digits (by decide) (by decide)
  have hmixed := hcompare hnumber hnext
  have htexts := hcompare hdigits hnext
  exact ⟨by decide, looseEq_of_compare? hnumbers, looseEq_of_compare? hmixed,
    looseEq_of_compare? htexts, compareAs_of_compare? hnumbers "<",
    compareAs_of_compare? hmixed "<", compareAs_of_compare? htexts "<"⟩

end Value

end Criteria
