import Criteria.Binary64.Basic

/-!
# Rounding

What rounding keeps: the magnitude of a rank is rounded to that rank, only the value of
a quotient matters and not how it is written, and quotients beyond the finite magnitudes
or below half the least one are rounded to infinity and to zero.
-/

namespace Criteria.Binary64

theorem roundHalfEven_mul_self {den : Nat} (q : Nat) (hd : 0 < den) :
    roundHalfEven (q * den) den = q := by
  simp [roundHalfEven, Nat.mul_div_cancel _ hd, hd]

theorem roundHalfEven_mul_right (num den : Nat) {c : Nat} (hc : 0 < c) :
    roundHalfEven (num * c) (den * c) = roundHalfEven num den := by
  have hlt (a b : Nat) : 2 * (a * c) < b * c ↔ 2 * a < b := by
    rw [← Nat.mul_assoc, Nat.mul_lt_mul_right hc]
  have hgt (a b : Nat) : b * c < 2 * (a * c) ↔ b < 2 * a := by
    rw [← Nat.mul_assoc, Nat.mul_lt_mul_right hc]
  simp only [roundHalfEven, Nat.mul_div_mul_right num den hc, Nat.mul_mod_mul_right, hlt, hgt]

theorem nearestRank_mul_right (num den : Nat) {c : Nat} (hc : 0 < c) :
    nearestRank (num * c) (den * c) = nearestRank num den := by
  simp only [nearestRank, Nat.mul_div_mul_right num den hc]
  rw [Nat.mul_right_comm den c, roundHalfEven_mul_right _ _ hc]

/-- The rank depends on the quotient alone. -/
theorem nearestRank_congr {num₁ den₁ num₂ den₂ : Nat} (h₁ : 0 < den₁) (h₂ : 0 < den₂)
    (h : num₁ * den₂ = num₂ * den₁) : nearestRank num₁ den₁ = nearestRank num₂ den₂ := by
  rw [← nearestRank_mul_right num₁ den₁ h₂, ← nearestRank_mul_right num₂ den₂ h₁, h,
    Nat.mul_comm den₁]

theorem isNaN_of_isFinite {x : Binary64} (hx : x.isFinite = true) : x.isNaN = false := by
  have hrank : x.rank < infinityRank := of_decide_eq_true hx
  exact decide_eq_false (by omega)

theorem unitsPerOne_pos : 0 < unitsPerOne := by
  obtain ⟨j, hj⟩ : ∃ j, j = 1074 := ⟨_, rfl⟩
  rw [unitsPerOne, ← hj]
  exact Nat.two_pow_pos j

theorem units_of_lt {k : Nat} (h : k < 2 ^ (52 : Nat)) : units k = k := by
  rw [units, if_pos h]

theorem units_of_ge {k : Nat} (h : 2 ^ (52 : Nat) ≤ k) :
    units k = (2 ^ (52 : Nat) + k % 2 ^ (52 : Nat)) * 2 ^ (k / 2 ^ (52 : Nat) - 1) := by
  simp only [units, if_neg (Nat.not_lt.mpr h)]

theorem log2_units_of_ge {k : Nat} (h : 2 ^ (52 : Nat) ≤ k) :
    (units k).log2 = 52 + (k / 2 ^ (52 : Nat) - 1) := by
  have hm : k % 2 ^ (52 : Nat) < 2 ^ (52 : Nat) := Nat.mod_lt _ (by decide)
  have hpos : 0 < 2 ^ (k / 2 ^ (52 : Nat) - 1) := Nat.two_pow_pos _
  rw [units_of_ge h, Nat.log2_eq_iff (Nat.mul_ne_zero (by omega) (by omega))]
  constructor
  · rw [Nat.pow_add]
    exact Nat.mul_le_mul_right _ (by omega)
  · rw [Nat.add_right_comm, Nat.pow_add]
    exact (Nat.mul_lt_mul_right hpos).mpr (by omega)

/-- The magnitude of a rank is rounded to that rank. -/
theorem nearestRank_units {k den : Nat} (hd : 0 < den) (hk : k ≤ infinityRank) :
    nearestRank (units k * den) den = k := by
  rw [nearestRank, Nat.mul_div_cancel _ hd]
  by_cases h : k < 2 ^ (52 : Nat)
  · have hlog : k.log2 - 52 = 0 := by
      by_cases h0 : k = 0
      · simp [h0]
      · have := (Nat.log2_lt h0).mpr h
        omega
    simp only [units_of_lt h, hlog, Nat.pow_zero, Nat.mul_one, Nat.zero_mul, Nat.zero_add]
    rw [roundHalfEven_mul_self _ hd]
    exact Nat.min_eq_left hk
  · have h := Nat.le_of_not_lt h
    have hdiv : 1 ≤ k / 2 ^ (52 : Nat) := (Nat.one_le_div_iff (by decide)).mpr h
    simp only [log2_units_of_ge h, Nat.add_sub_cancel_left]
    rw [units_of_ge h, Nat.mul_assoc, Nat.mul_comm (2 ^ (k / 2 ^ (52 : Nat) - 1)) den,
      roundHalfEven_mul_self _ (Nat.mul_pos hd (Nat.two_pow_pos _))]
    have hk' : (k / 2 ^ (52 : Nat) - 1) * 2 ^ (52 : Nat) + (2 ^ (52 : Nat) + k % 2 ^ (52 : Nat)) =
        k := by
      have := Nat.div_add_mod k (2 ^ (52 : Nat))
      have : (k / 2 ^ (52 : Nat) - 1) * 2 ^ (52 : Nat) + 2 ^ (52 : Nat) =
          2 ^ (52 : Nat) * (k / 2 ^ (52 : Nat)) := by
        rw [← Nat.succ_mul, Nat.mul_comm]
        congr 1
        omega
      omega
    rw [hk']
    exact Nat.min_eq_left hk

/-- Beyond the finite magnitudes everything is rounded to infinity. -/
theorem nearestRank_of_large {num den i : Nat} (hi : 2099 ≤ i) (h : 2 ^ i ≤ num / den) :
    nearestRank num den = infinityRank := by
  have hlog : i ≤ (num / den).log2 :=
    (Nat.le_log2 (Nat.ne_of_gt (Nat.lt_of_lt_of_le (Nat.two_pow_pos _) h))).mpr h
  have hshift : 2047 * 2 ^ (52 : Nat) ≤ ((num / den).log2 - 52) * 2 ^ (52 : Nat) :=
    Nat.mul_le_mul_right _ (by omega)
  exact Nat.min_eq_right (Nat.le_trans hshift (Nat.le_add_right _ _))

theorem roundHalfEven_le (num den : Nat) : roundHalfEven num den ≤ num / den + 1 := by
  unfold roundHalfEven
  dsimp only
  split
  · omega
  · split <;> omega

/-- Quotients that are not beyond the finite magnitudes have a finite rank. -/
theorem nearestRank_lt {num den i : Nat} (hi : i < 2098) (h : num / den < 2 ^ i) :
    nearestRank num den < infinityRank := by
  obtain ⟨q, hq⟩ : ∃ q, q = num / den := ⟨_, rfl⟩
  obtain ⟨shift, hshift⟩ : ∃ shift, shift = q.log2 - 52 := ⟨_, rfl⟩
  have hsmall : shift ≤ 2044 := by
    by_cases h0 : q = 0
    · simp [hshift, h0]
    · have := (Nat.log2_lt h0).mpr (hq ▸ h)
      omega
  have hpart : num / (den * 2 ^ shift) < 2 ^ (53 : Nat) := by
    rw [← Nat.div_div_eq_div_mul, ← hq, Nat.div_lt_iff_lt_mul (Nat.two_pow_pos _), ← Nat.pow_add]
    exact Nat.lt_of_lt_of_le Nat.lt_log2_self (Nat.pow_le_pow_right (by decide) (by omega))
  have hround := roundHalfEven_le num (den * 2 ^ shift)
  have hrank : shift * 2 ^ (52 : Nat) + roundHalfEven num (den * 2 ^ shift) < infinityRank := by
    have : shift * 2 ^ (52 : Nat) ≤ 2044 * 2 ^ (52 : Nat) := Nat.mul_le_mul_right _ hsmall
    have hinf : infinityRank = 2047 * 2 ^ (52 : Nat) := rfl
    omega
  simp only [nearestRank, ← hq, ← hshift]
  exact Nat.lt_of_le_of_lt (Nat.min_le_left _ _) hrank

/-- Below half the least magnitude everything is rounded to zero. -/
theorem nearestRank_of_small {num den : Nat} (h : 2 * num < den) : nearestRank num den = 0 := by
  have hq : num / den = 0 := Nat.div_eq_of_lt (by omega)
  have hr : num % den = num := Nat.mod_eq_of_lt (by omega)
  simp [nearestRank, roundHalfEven, hq, hr, h]

/-- The integers of 64 bits are finite as floating numbers. -/
theorem isFinite_ofInt {n : Int} (h : n.natAbs < 2 ^ (64 : Nat)) : (ofInt n).isFinite = true := by
  obtain ⟨i, hi⟩ : ∃ i, i = 1074 := ⟨_, rfl⟩
  have hunits : n.natAbs * unitsPerOne / 1 < 2 ^ (64 + i) := by
    rw [unitsPerOne, ← hi, Nat.div_one, Nat.pow_add]
    exact (Nat.mul_lt_mul_right (Nat.two_pow_pos _)).mpr h
  exact decide_eq_true (nearestRank_lt (by omega) hunits)

end Criteria.Binary64
