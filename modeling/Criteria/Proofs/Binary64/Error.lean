import Criteria.Proofs.Binary64.Integral

/-!
# The error of rounding

What is rounded is moved by half the distance between two magnitudes at most. Integers of 64 bits
are moved by 1024 at most, so that those that become equal are at most 2048 apart.
-/

namespace Criteria.Binary64

/-- Two magnitudes that are at most `gap` apart. -/
structure Within (gap a b : Nat) : Prop where
  below : a ≤ b + gap
  above : b ≤ a + gap

/-! ## Half of the distance -/

theorem roundHalfEven_within (num : Nat) {den : Nat} (hd : 0 < den) :
    Within den (2 * (roundHalfEven num den * den)) (2 * num) := by
  obtain ⟨q, hq⟩ : ∃ q, q = num / den := ⟨_, rfl⟩
  obtain ⟨r, hr⟩ : ∃ r, r = num % den := ⟨_, rfl⟩
  have hnum : num = q * den + r := by rw [hq, hr, Nat.mul_comm, Nat.div_add_mod]
  have hlt : r < den := hr ▸ Nat.mod_lt num hd
  have hnext : (q + 1) * den = q * den + den := Nat.succ_mul q den
  unfold roundHalfEven
  rw [← hq, ← hr]
  dsimp only
  split
  · constructor <;> omega
  split
  · constructor <;> omega
  · -- Half way, so that both neighbours are as near.
    rcases Nat.mod_two_eq_zero_or_one q with heven | hodd
    · rw [heven, Nat.add_zero]
      constructor <;> omega
    · rw [hodd]
      constructor <;> omega

/-- The magnitude of a rank that is put together from a shift and a significand, which may have
been rounded up to one digit more. -/
theorem units_shift {shift m : Nat} (hlow : shift = 0 ∨ 2 ^ (52 : Nat) ≤ m)
    (hhigh : m ≤ 2 ^ (53 : Nat)) :
    units (shift * 2 ^ (52 : Nat) + m) = m * 2 ^ shift := by
  by_cases hsmall : m < 2 ^ (52 : Nat)
  · obtain rfl : shift = 0 := hlow.resolve_right (Nat.not_le.mpr hsmall)
    rw [Nat.zero_mul, Nat.zero_add, units_of_lt hsmall, Nat.pow_zero, Nat.mul_one]
  rw [units_of_ge (by omega)]
  by_cases htop : m = 2 ^ (53 : Nat)
  · have hdiv : (shift * 2 ^ (52 : Nat) + m) / 2 ^ (52 : Nat) - 1 = shift + 1 := by omega
    have hmod : 2 ^ (52 : Nat) + (shift * 2 ^ (52 : Nat) + m) % 2 ^ (52 : Nat) = 2 ^ (52 : Nat) := by
      omega
    rw [hdiv, hmod, htop, Nat.pow_succ 2 shift, Nat.mul_comm _ 2, ← Nat.mul_assoc]
  · have hdiv : (shift * 2 ^ (52 : Nat) + m) / 2 ^ (52 : Nat) - 1 = shift := by omega
    have hmod : 2 ^ (52 : Nat) + (shift * 2 ^ (52 : Nat) + m) % 2 ^ (52 : Nat) = m := by omega
    rw [hdiv, hmod]

/-- The shift of a magnitude says how far it is to the next one. -/
theorem units_nearestRank_within {num : Nat} (h : nearestRank num 1 < infinityRank) :
    Within (2 ^ (num.log2 - 52)) (2 * units (nearestRank num 1)) (2 * num) := by
  obtain ⟨shift, hshift⟩ : ∃ shift, shift = num.log2 - 52 := ⟨_, rfl⟩
  obtain ⟨m, hm⟩ : ∃ m, m = roundHalfEven num (2 ^ shift) := ⟨_, rfl⟩
  have hlow : shift = 0 ∨ 2 ^ (52 : Nat) ≤ m := by
    by_cases hlog : 52 ≤ num.log2
    · have hle : 2 ^ (52 : Nat) ≤ roundHalfEven num (1 * 2 ^ ((num / 1).log2 - 52)) :=
        le_roundHalfEven (by rwa [Nat.div_one])
      rw [Nat.div_one, Nat.one_mul, ← hshift, ← hm] at hle
      exact .inr hle
    · exact .inl (by omega)
  have hhigh : m ≤ 2 ^ (53 : Nat) := by
    have hle := roundHalfEven_le_two_pow num 1
    rwa [Nat.div_one, Nat.one_mul, ← hshift, ← hm] at hle
  have hrank : nearestRank num 1 = shift * 2 ^ (52 : Nat) + m := by
    rw [nearestRank, Nat.div_one, Nat.one_mul, ← hshift, ← hm] at h ⊢
    omega
  rw [hrank, units_shift hlow hhigh, ← hshift, hm]
  exact roundHalfEven_within num (Nat.two_pow_pos shift)

/-! ## Integers -/

theorem units_of_natAbs_within {a : Nat} (h : a < 2 ^ (64 : Nat)) :
    Within (2048 * unitsPerOne) (2 * units (nearestRank (a * unitsPerOne) 1))
      (2 * (a * unitsPerOne)) := by
  obtain ⟨j, hj⟩ : ∃ j, j = 1074 := ⟨_, rfl⟩
  have hfinite : nearestRank (a * unitsPerOne) 1 < infinityRank :=
    of_decide_eq_true (isFinite_ofInt (n := a) h)
  have hlog : (a * unitsPerOne).log2 - 52 ≤ 11 + j := by
    by_cases h0 : a * unitsPerOne = 0
    · simp [h0]
    · have hvalue : a * unitsPerOne < 2 ^ (64 + j) := by
        rw [unitsPerOne, ← hj, Nat.pow_add]
        exact (Nat.mul_lt_mul_right (Nat.two_pow_pos _)).mpr h
      have hlt := (Nat.log2_lt h0).mpr hvalue
      omega
  have hgap : 2 ^ ((a * unitsPerOne).log2 - 52) ≤ 2048 * unitsPerOne :=
    calc 2 ^ ((a * unitsPerOne).log2 - 52) ≤ 2 ^ (11 + j) := Nat.pow_le_pow_right (by decide) hlog
      _ = 2048 * unitsPerOne := by rw [Nat.pow_add, unitsPerOne, ← hj]
  have hwithin := units_nearestRank_within hfinite
  exact ⟨Nat.le_trans hwithin.below (Nat.add_le_add_left hgap _),
    Nat.le_trans hwithin.above (Nat.add_le_add_left hgap _)⟩

/-- An integer is moved by 1024 at most. -/
theorem signedUnits_ofInt {n : Int} (h : n.natAbs < 2 ^ (64 : Nat)) :
    ((ofInt n).signedUnits - n * unitsPerOne).natAbs ≤ 1024 * unitsPerOne := by
  have hwithin := units_of_natAbs_within h
  have hunits : (ofInt n).signedUnits =
      if n < 0 then -(units (nearestRank (n.natAbs * unitsPerOne) 1) : Int)
      else units (nearestRank (n.natAbs * unitsPerOne) 1) := by
    simp only [signedUnits, ofInt, ofRatio, ofUnits, decide_eq_true_eq]
  have hvalue : n * unitsPerOne =
      if n < 0 then -((n.natAbs * unitsPerOne : Nat) : Int)
      else (n.natAbs * unitsPerOne : Nat) := by
    rw [Int.natCast_mul]
    split
    · rw [← Int.neg_mul]
      congr 1
      omega
    · congr 1
      omega
  rw [hunits, hvalue]
  obtain ⟨hbelow, habove⟩ := hwithin
  generalize units (nearestRank (n.natAbs * unitsPerOne) 1) = a at hbelow habove ⊢
  generalize n.natAbs * unitsPerOne = b at hbelow habove ⊢
  split <;> omega

theorem signedUnits_of_key {x y : Binary64} (h : x.key = y.key) :
    x.signedUnits = y.signedUnits := by
  have hopposite {a b : Nat} (hab : -(a : Int) = b) : -(units a : Int) = units b := by
    obtain ⟨rfl, rfl⟩ : a = 0 ∧ b = 0 := by omega
    rfl
  obtain ⟨negative, a, ha⟩ := x
  obtain ⟨negative', b, hb⟩ := y
  cases negative with
  | false =>
    cases negative' with
    | false =>
      obtain rfl : a = b := Int.ofNat.inj h
      rfl
    | true => exact (hopposite h.symm).symm
  | true =>
    cases negative' with
    | false => exact hopposite h
    | true =>
      obtain rfl : a = b := Int.ofNat.inj (Int.neg_inj.mp h)
      rfl

/-- Integers that become equal are not far from each other. -/
theorem natAbs_sub_le_of_key {m n : Int} (hm : m.natAbs < 2 ^ (64 : Nat))
    (hn : n.natAbs < 2 ^ (64 : Nat)) (h : (ofInt m).key = (ofInt n).key) : (m - n).natAbs ≤ 2048 := by
  have hleft := signedUnits_ofInt hm
  have hright := signedUnits_ofInt hn
  have hpos := unitsPerOne_pos
  rw [signedUnits_of_key h] at hleft
  have hdistance : (m - n).natAbs * unitsPerOne ≤ 2048 * unitsPerOne := by
    have hsub : (m - n) * (unitsPerOne : Int) = m * unitsPerOne - n * unitsPerOne := Int.sub_mul ..
    rw [← Int.natAbs_natCast unitsPerOne, ← Int.natAbs_mul, hsub, Int.natAbs_natCast]
    omega
  exact Nat.le_of_mul_le_mul_right hdistance hpos

/-- The order of integers is kept. -/
theorem key_ofInt_mono {m n : Int} (h : m ≤ n) : (ofInt m).key ≤ (ofInt n).key := by
  have hrank {a b : Nat} (hab : a ≤ b) :
      nearestRank (a * unitsPerOne) 1 ≤ nearestRank (b * unitsPerOne) 1 :=
    nearestRank_mono 1 (Nat.mul_le_mul_right _ hab)
  simp only [key, ofInt, ofRatio, ofUnits, decide_eq_true_eq]
  by_cases hm : m < 0
  · by_cases hn : n < 0
    · have hle := hrank (a := n.natAbs) (b := m.natAbs) (by omega)
      rw [if_pos hm, if_pos hn]
      omega
    · rw [if_pos hm, if_neg hn]
      omega
  · have hle := hrank (a := m.natAbs) (b := n.natAbs) (by omega)
    rw [if_neg hm, if_neg (by omega)]
    omega

end Criteria.Binary64
