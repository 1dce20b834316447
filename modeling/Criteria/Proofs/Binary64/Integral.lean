import Criteria.Proofs.Binary64.Nearest

/-!
# The order of rounding, and integers

Rounding keeps the order of quotients. An integer is rounded to an integer: below `2 ^ 53` it
is kept, and beyond that there are no other magnitudes.
-/

namespace Criteria.Binary64

theorem div_le_roundHalfEven (num den : Nat) : num / den ≤ roundHalfEven num den := by
  unfold roundHalfEven
  dsimp only
  split
  · exact Nat.le_refl _
  · split <;> omega

theorem roundHalfEven_mono {a b : Nat} (den : Nat) (h : a ≤ b) :
    roundHalfEven a den ≤ roundHalfEven b den := by
  have hq : a / den ≤ b / den := Nat.div_le_div_right h
  by_cases heq : a / den = b / den
  · have hr : a % den ≤ b % den := by
      have ha := Nat.div_add_mod a den
      have hb := Nat.div_add_mod b den
      rw [heq] at ha
      omega
    simp only [roundHalfEven, heq]
    split <;> split <;> (try split) <;> (try split) <;> omega
  · -- Rounding up is one step at most.
    calc roundHalfEven a den ≤ a / den + 1 := roundHalfEven_le a den
      _ ≤ b / den := by omega
      _ ≤ roundHalfEven b den := div_le_roundHalfEven b den

/-- Digits enough for a magnitude, where the quotient is not too small for it. -/
theorem le_roundHalfEven {num den : Nat} (h : 52 ≤ (num / den).log2) :
    2 ^ (52 : Nat) ≤ roundHalfEven num (den * 2 ^ ((num / den).log2 - 52)) := by
  obtain ⟨q, hq⟩ : ∃ q, q = num / den := ⟨_, rfl⟩
  rw [← hq] at h ⊢
  have hne : q ≠ 0 := by
    intro h0
    simp [h0] at h
  have hpart : 2 ^ (52 : Nat) ≤ num / (den * 2 ^ (q.log2 - 52)) := by
    rw [← Nat.div_div_eq_div_mul, ← hq, Nat.le_div_iff_mul_le (Nat.two_pow_pos _), ← Nat.pow_add]
    exact Nat.le_trans (Nat.pow_le_pow_right (by decide) (by omega)) (Nat.log2_self_le hne)
  exact Nat.le_trans hpart (div_le_roundHalfEven _ _)

theorem roundHalfEven_le_two_pow (num den : Nat) :
    roundHalfEven num (den * 2 ^ ((num / den).log2 - 52)) ≤ 2 ^ (53 : Nat) := by
  have hpart : num / (den * 2 ^ ((num / den).log2 - 52)) < 2 ^ (53 : Nat) := by
    rw [← Nat.div_div_eq_div_mul, Nat.div_lt_iff_lt_mul (Nat.two_pow_pos _), ← Nat.pow_add]
    exact Nat.lt_of_lt_of_le Nat.lt_log2_self (Nat.pow_le_pow_right (by decide) (by omega))
  exact Nat.le_trans (roundHalfEven_le _ _) hpart

/-- Rounding keeps the order. -/
theorem nearestRank_mono {a b : Nat} (den : Nat) (h : a ≤ b) :
    nearestRank a den ≤ nearestRank b den := by
  have hq : a / den ≤ b / den := Nat.div_le_div_right h
  have hlog : (a / den).log2 ≤ (b / den).log2 := by
    by_cases h0 : a / den = 0
    · simp [h0]
    · have hpos : 0 < b / den := Nat.lt_of_lt_of_le (Nat.pos_of_ne_zero h0) hq
      exact (Nat.le_log2 (Nat.ne_of_gt hpos)).mpr (Nat.le_trans (Nat.log2_self_le h0) hq)
  simp only [nearestRank]
  refine Nat.le_min.mpr ⟨?_, Nat.min_le_right _ _⟩
  refine Nat.le_trans (Nat.min_le_left _ _) ?_
  by_cases heq : (a / den).log2 - 52 = (b / den).log2 - 52
  · rw [heq]
    exact Nat.add_le_add_left (roundHalfEven_mono _ h) _
  · -- A shift further on, the least magnitude is as large as the greatest before it.
    have hlow := roundHalfEven_le_two_pow a den
    have hhigh : 2 ^ (52 : Nat) ≤ roundHalfEven b (den * 2 ^ ((b / den).log2 - 52)) :=
      le_roundHalfEven (by omega)
    omega

/-! ## Integers -/

theorem units_mod_of_large {k : Nat} (h : 1075 * 2 ^ (52 : Nat) ≤ k) :
    units k % unitsPerOne = 0 := by
  obtain ⟨j, hj⟩ : ∃ j, j = 1074 := ⟨_, rfl⟩
  have hk : 1 + j ≤ k / 2 ^ (52 : Nat) := by
    rw [Nat.le_div_iff_mul_le (Nat.two_pow_pos 52), hj]
    exact h
  rw [units_of_ge (by omega), unitsPerOne, ← hj]
  refine Nat.mod_eq_zero_of_dvd (Nat.dvd_trans ?_ (Nat.dvd_mul_left _ _))
  exact Nat.pow_dvd_pow 2 (by omega)

/-- The integers of 53 bits are magnitudes. -/
theorem exists_units {n : Nat} (h : n < 2 ^ (53 : Nat)) :
    ∃ k, k ≤ infinityRank ∧ units k = n * unitsPerOne := by
  by_cases h0 : n = 0
  · exact ⟨0, Nat.zero_le _, by rw [h0, Nat.zero_mul]; rfl⟩
  obtain ⟨j, hj⟩ : ∃ j, j = 1074 := ⟨_, rfl⟩
  obtain ⟨i, hi⟩ : ∃ i, i = n.log2 := ⟨_, rfl⟩
  have hi52 : i ≤ 52 := by
    have hlog := (Nat.log2_lt h0).mpr h
    omega
  -- The significand is `n`, shifted until its first digit is in place.
  obtain ⟨m, hm⟩ : ∃ m, m = n * 2 ^ (52 - i) := ⟨_, rfl⟩
  have hlow : 2 ^ (52 : Nat) ≤ m :=
    calc 2 ^ (52 : Nat) = 2 ^ i * 2 ^ (52 - i) := by rw [← Nat.pow_add, Nat.add_sub_cancel' hi52]
      _ ≤ n * 2 ^ (52 - i) := Nat.mul_le_mul_right _ (hi ▸ Nat.log2_self_le h0)
      _ = m := hm.symm
  have hhigh : m < 2 ^ (53 : Nat) :=
    calc m = n * 2 ^ (52 - i) := hm
      _ < 2 ^ (i + 1) * 2 ^ (52 - i) :=
        (Nat.mul_lt_mul_right (Nat.two_pow_pos _)).mpr (hi ▸ Nat.lt_log2_self)
      _ ≤ 2 ^ (53 : Nat) := by
        rw [← Nat.pow_add]
        exact Nat.pow_le_pow_right (by decide) (by omega)
  obtain ⟨k, hk⟩ : ∃ k, k = (i + 1022) * 2 ^ (52 : Nat) + m := ⟨_, rfl⟩
  have hdiv : k / 2 ^ (52 : Nat) - 1 = i + 1022 := by omega
  have hmod : 2 ^ (52 : Nat) + k % 2 ^ (52 : Nat) = m := by omega
  refine ⟨k, by rw [infinityRank]; omega, ?_⟩
  rw [units_of_ge (by omega), hdiv, hmod, hm, Nat.mul_assoc, ← Nat.pow_add, unitsPerOne, ← hj]
  congr 2
  omega

/-- The finite magnitude nearest to an integer is an integer. -/
theorem units_nearestRank_mod (n : Nat) :
    units (nearestRank (n * unitsPerOne) 1) % unitsPerOne = 0 := by
  by_cases h : n < 2 ^ (53 : Nat)
  · obtain ⟨k, hk, hunits⟩ := exists_units h
    have hrank := nearestRank_units Nat.one_pos hk
    rw [hunits, Nat.mul_one] at hrank
    rw [hrank, hunits]
    exact Nat.mul_mod_left _ _
  · apply units_mod_of_large
    obtain ⟨j, hj⟩ : ∃ j, j = 1074 := ⟨_, rfl⟩
    have hvalue : 2 ^ (53 + j) ≤ n * unitsPerOne := by
      rw [Nat.pow_add, unitsPerOne, ← hj]
      exact Nat.mul_le_mul_right _ (Nat.le_of_not_lt h)
    have hpos : n * unitsPerOne ≠ 0 := Nat.ne_of_gt (Nat.lt_of_lt_of_le (Nat.two_pow_pos _) hvalue)
    have hlog : 53 + j ≤ (n * unitsPerOne).log2 := (Nat.le_log2 hpos).mpr hvalue
    rw [nearestRank, Nat.div_one]
    refine Nat.le_min.mpr ⟨Nat.le_trans (Nat.mul_le_mul_right _ ?_) (Nat.le_add_right _ _), ?_⟩
    · omega
    · decide

end Criteria.Binary64
