import Criteria.Binary64.Arithmetic
import Criteria.Proofs.Binary64.Error

/-!
# The range of floating numbers

A quotient is rounded to a finite number just below `2 ^ 1024 - 2 ^ 970`, which is half way from
the greatest finite number to the next power of two. What is calculated from integers of 64 bits
by one of the four operations of arithmetic stays far below that.
-/

namespace Criteria.Binary64

theorem isInfinite_of_isFinite {x : Binary64} (hx : x.isFinite = true) : x.isInfinite = false := by
  have hrank : x.rank < infinityRank := of_decide_eq_true hx
  exact beq_false_of_ne (by omega)

/-! ## The least quotient that is rounded to infinity -/

/-- Half way between the greatest finite number and `2 ^ 1024`. -/
def overflow : Nat := 2 ^ (1024 : Nat) - 2 ^ (970 : Nat)

theorem nearestRank_overflow : nearestRank (overflow * unitsPerOne) 1 = infinityRank := by
  decide +kernel

theorem roundHalfEven_le_of_lt {num den q : Nat} (h : 2 * num < (2 * q + 1) * den) :
    roundHalfEven num den ≤ q := by
  have hodd : (2 * q + 1) * den = 2 * (q * den) + den := by rw [Nat.succ_mul, Nat.mul_assoc]
  rw [hodd] at h
  have hdiv := Nat.div_add_mod num den
  have hstep := roundHalfEven_le num den
  by_cases hq : num / den < q
  · omega
  · have heq : num / den = q := by
      have hpos : 0 < den := by
        refine Nat.pos_of_ne_zero fun h0 => ?_
        simp [h0] at h
      refine Nat.le_antisymm ?_ (Nat.le_of_not_lt hq)
      refine Nat.le_of_lt_succ ((Nat.div_lt_iff_lt_mul hpos).mpr ?_)
      rw [Nat.succ_mul]
      omega
    -- The rest is less than a half, so that it is dropped.
    have hrest : 2 * (num % den) < den := by
      rw [heq, Nat.mul_comm den] at hdiv
      omega
    rw [roundHalfEven, heq]
    simp only [if_pos hrest, Nat.le_refl]

/-- Digits that are less than half a step above `m` are not rounded up to more than `m`. -/
theorem roundHalfEven_shift_le {num den m c : Nat} (j : Nat) (hc : 2 * m + 1 = c)
    (h : num < c * 2 ^ j * den) : roundHalfEven num (den * 2 ^ (1 + j)) ≤ m := by
  apply roundHalfEven_le_of_lt
  rw [hc]
  calc 2 * num < 2 * (c * 2 ^ j * den) := by omega
    _ = c * (den * 2 ^ (1 + j)) := by
      rw [Nat.pow_add, Nat.pow_one, Nat.mul_left_comm den, Nat.mul_comm den, Nat.mul_left_comm c,
        Nat.mul_assoc]

theorem nearestRank_of_overflow {num den : Nat} (hd : 0 < den) (h : overflow * den ≤ num) :
    infinityRank ≤ nearestRank (num * unitsPerOne) den := by
  have hbound : nearestRank (overflow * den * unitsPerOne) den = infinityRank := by
    rw [← nearestRank_overflow, Nat.mul_right_comm]
    exact nearestRank_congr hd Nat.one_pos (Nat.mul_one _)
  rw [← hbound]
  exact nearestRank_mono den (Nat.mul_le_mul_right unitsPerOne h)

theorem nearestRank_of_lt_overflow {num den : Nat} (hd : 0 < den) (h : num < overflow * den) :
    nearestRank (num * unitsPerOne) den < infinityRank := by
  obtain ⟨j, hj⟩ : ∃ j, j = 2044 := ⟨_, rfl⟩
  have hbound : overflow * unitsPerOne = (2 ^ (54 : Nat) - 1) * 2 ^ j := by
    rw [hj]
    decide +kernel
  have hnum : num * unitsPerOne < (2 ^ (54 : Nat) - 1) * 2 ^ j * den := by
    rw [← hbound, Nat.mul_right_comm]
    exact (Nat.mul_lt_mul_right unitsPerOne_pos).mpr h
  by_cases hsmall : num * unitsPerOne / den < 2 ^ (53 + j)
  · exact nearestRank_lt (by omega) hsmall
  · -- The quotient has the greatest shift, and its digits are not rounded up to one more.
    have hlarge := Nat.le_of_not_lt hsmall
    have hq : num * unitsPerOne / den < 2 ^ (54 + j) := by
      rw [Nat.div_lt_iff_lt_mul hd, Nat.pow_add]
      exact Nat.lt_of_lt_of_le hnum (Nat.mul_le_mul_right _ (Nat.mul_le_mul_right _ (by decide)))
    have hlog : (num * unitsPerOne / den).log2 = 53 + j := by
      rw [Nat.log2_eq_iff (Nat.ne_of_gt (Nat.lt_of_lt_of_le (Nat.two_pow_pos _) hlarge))]
      exact ⟨hlarge, by rwa [Nat.add_right_comm]⟩
    have hround := roundHalfEven_shift_le (m := 2 ^ (53 : Nat) - 1) j (by decide) hnum
    have hshift : 53 + j - 52 = 1 + j := by omega
    have hinf : infinityRank = 2047 * 2 ^ (52 : Nat) := rfl
    rw [nearestRank, hlog, hshift]
    exact Nat.lt_of_le_of_lt (Nat.min_le_left _ _) (by omega)

/-- Quotients are finite as floating numbers just below the bound. -/
theorem isFinite_ofRatio (negative : Bool) (num : Nat) {den : Nat} (hd : 0 < den) :
    (ofRatio negative num den).isFinite = true ↔ num < overflow * den := by
  have hfinite : (ofRatio negative num den).isFinite = true ↔
      nearestRank (num * unitsPerOne) den < infinityRank := decide_eq_true_iff
  rw [hfinite]
  constructor
  · intro hrank
    refine Nat.lt_of_not_le fun hle => ?_
    have hinfinite := nearestRank_of_overflow hd hle
    omega
  · exact nearestRank_of_lt_overflow hd

/-! ## Arithmetic on integers -/

theorem isFinite_ofUnits {negative : Bool} {num den i : Nat} (hi : i < 1024)
    (h : num / den < 2 ^ i * unitsPerOne) : (ofUnits negative num den).isFinite = true := by
  obtain ⟨j, hj⟩ : ∃ j, j = 1074 := ⟨_, rfl⟩
  rw [unitsPerOne, ← hj, ← Nat.pow_add] at h
  exact decide_eq_true (nearestRank_lt (by omega) h)

/-- A finite number that is no greater than the integers of 64 bits. -/
structure Moderate (x : Binary64) : Prop where
  finite : x.isFinite = true
  bounded : units x.rank ≤ 2 ^ (64 : Nat) * unitsPerOne

theorem moderate_ofInt {n : Int} (h : n.natAbs ≤ 2 ^ (63 : Nat)) : (ofInt n).Moderate where
  finite := isFinite_ofInt (by omega)
  bounded := by
    have hwithin := (units_of_natAbs_within (a := n.natAbs) (by omega)).below
    have hsize : n.natAbs * unitsPerOne ≤ 2 ^ (63 : Nat) * unitsPerOne := Nat.mul_le_mul_right _ h
    have hrank : (ofInt n).rank = nearestRank (n.natAbs * unitsPerOne) 1 := rfl
    rw [hrank]
    omega

namespace Moderate

variable {x y : Binary64}

theorem neg (hx : x.Moderate) : x.neg.Moderate := ⟨hx.finite, hx.bounded⟩

theorem isFinite_add (hx : x.Moderate) (hy : y.Moderate) : (x.add y).isFinite = true := by
  simp only [add, isNaN_of_isFinite hx.finite, isNaN_of_isFinite hy.finite,
    isInfinite_of_isFinite hx.finite, isInfinite_of_isFinite hy.finite, Bool.or_self,
    Bool.false_eq_true, if_false]
  split
  · rfl
  · refine isFinite_ofUnits (i := 66) (by decide) ?_
    have hpos := unitsPerOne_pos
    have hleft := hx.bounded
    have hright := hy.bounded
    have hsum : (x.signedUnits + y.signedUnits).natAbs ≤ units x.rank + units y.rank := by
      simp only [signedUnits]
      split <;> split <;> omega
    rw [Nat.div_one]
    omega

theorem isFinite_sub (hx : x.Moderate) (hy : y.Moderate) : (x.sub y).isFinite = true :=
  hx.isFinite_add hy.neg

theorem isFinite_mul (hx : x.Moderate) (hy : y.Moderate) : (x.mul y).isFinite = true := by
  simp only [mul, isNaN_of_isFinite hx.finite, isNaN_of_isFinite hy.finite,
    isInfinite_of_isFinite hx.finite, isInfinite_of_isFinite hy.finite, Bool.or_self,
    Bool.false_eq_true, if_false]
  refine isFinite_ofUnits (i := 129) (by decide) ?_
  rw [Nat.div_lt_iff_lt_mul unitsPerOne_pos]
  have hpos : 0 < unitsPerOne * unitsPerOne := Nat.mul_pos unitsPerOne_pos unitsPerOne_pos
  calc units x.rank * units y.rank
      ≤ 2 ^ (64 : Nat) * unitsPerOne * (2 ^ (64 : Nat) * unitsPerOne) :=
        Nat.mul_le_mul hx.bounded hy.bounded
    _ = 2 ^ (128 : Nat) * (unitsPerOne * unitsPerOne) := by
        rw [Nat.mul_mul_mul_comm, ← Nat.pow_add]
    _ < 2 ^ (129 : Nat) * (unitsPerOne * unitsPerOne) := (Nat.mul_lt_mul_right hpos).mpr (by decide)
    _ = 2 ^ (129 : Nat) * unitsPerOne * unitsPerOne := (Nat.mul_assoc ..).symm

theorem isFinite_div (hx : x.Moderate) (hy : y.Moderate) (h1 : unitsPerOne ≤ units y.rank) :
    (x.div y).isFinite = true := by
  have hpos : 0 < units y.rank := Nat.lt_of_lt_of_le unitsPerOne_pos h1
  have hzero : y.isZero = false := by
    refine beq_false_of_ne fun hrank => ?_
    rw [hrank] at hpos
    exact absurd hpos (by decide)
  simp only [div, isNaN_of_isFinite hx.finite, isNaN_of_isFinite hy.finite,
    isInfinite_of_isFinite hx.finite, isInfinite_of_isFinite hy.finite, hzero, Bool.or_self,
    Bool.false_eq_true, if_false]
  refine isFinite_ofUnits (i := 65) (by decide) ?_
  rw [Nat.div_lt_iff_lt_mul hpos]
  have hproduct : 0 < unitsPerOne * units y.rank := Nat.mul_pos unitsPerOne_pos hpos
  calc units x.rank * unitsPerOne ≤ 2 ^ (64 : Nat) * unitsPerOne * units y.rank :=
        Nat.mul_le_mul hx.bounded h1
    _ = 2 ^ (64 : Nat) * (unitsPerOne * units y.rank) := Nat.mul_assoc ..
    _ < 2 ^ (65 : Nat) * (unitsPerOne * units y.rank) :=
        (Nat.mul_lt_mul_right hproduct).mpr (by decide)
    _ = 2 ^ (65 : Nat) * unitsPerOne * units y.rank := (Nat.mul_assoc ..).symm

end Moderate

/-! ## Integers other than zero -/

theorem nearestRank_unitsPerOne : nearestRank (1 * unitsPerOne) 1 = 1023 * 2 ^ (52 : Nat) := by
  decide +kernel

theorem rank_ofInt_pos {n : Int} (h : n ≠ 0) : 0 < (ofInt n).rank := by
  have h1 : 1 ≤ n.natAbs := Int.natAbs_pos.mpr h
  calc 0 < 1023 * 2 ^ (52 : Nat) := by decide
    _ = nearestRank (1 * unitsPerOne) 1 := nearestRank_unitsPerOne.symm
    _ ≤ nearestRank (n.natAbs * unitsPerOne) 1 :=
      nearestRank_mono 1 (Nat.mul_le_mul_right unitsPerOne h1)

theorem isZero_ofInt (n : Int) : (ofInt n).isZero = decide (n = 0) := by
  by_cases h : n = 0
  · subst h
    decide +kernel
  · rw [decide_eq_false h]
    exact beq_false_of_ne (Nat.ne_of_gt (rank_ofInt_pos h))

theorem units_pos {k : Nat} (h : 0 < k) : 0 < units k := by
  by_cases hk : k < 2 ^ (52 : Nat)
  · rwa [units_of_lt hk]
  · rw [units_of_ge (Nat.le_of_not_lt hk)]
    exact Nat.mul_pos (by omega) (Nat.two_pow_pos _)

theorem unitsPerOne_le_units_ofInt {n : Int} (h : n ≠ 0) : unitsPerOne ≤ units (ofInt n).rank :=
  Nat.le_of_dvd (units_pos (rank_ofInt_pos h))
    (Nat.dvd_of_mod_eq_zero (units_nearestRank_mod n.natAbs))

end Criteria.Binary64
