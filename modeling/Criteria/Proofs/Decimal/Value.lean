import Criteria.Decimal.Shortest
import Criteria.Proofs.Binary64.Nearest

/-!
# The value of decimal numbers

The binary number of a decimal number depends on its sign and its value alone, however
the value is split into digits and a power of ten. In particular the powers of ten that
are not computed would not have changed it, and the shortest decimal number of a finite
number reads back as it.
-/

namespace Criteria.Decimal

open Binary64

/-- The value without the sign is the quotient of `num` by `den`. -/
def num (d : Decimal) : Nat := d.digits * 10 ^ d.exponent.toNat

def den (d : Decimal) : Nat := 10 ^ (-d.exponent).toNat

theorem den_pos (d : Decimal) : 0 < d.den := Nat.pow_pos (by decide)

/-- Two decimal numbers have the same sign and value. -/
structure Equal (d₁ d₂ : Decimal) : Prop where
  negative : d₁.negative = d₂.negative
  value : d₁.num * d₂.den = d₂.num * d₁.den

theorem two_pow_le_ten_pow {a b i k : Nat} (n : Nat) (h : 2 ^ a ≤ 10 ^ b) (hi : i ≤ 93 * n + a)
    (hk : 28 * n + b ≤ k) : 2 ^ i ≤ 10 ^ k := by
  have hstep : 2 ^ (93 : Nat) ≤ 10 ^ (28 : Nat) := by decide
  calc 2 ^ i ≤ 2 ^ (93 * n + a) := Nat.pow_le_pow_right (by decide) hi
    _ = (2 ^ (93 : Nat)) ^ n * 2 ^ a := by rw [Nat.pow_add, Nat.pow_mul]
    _ ≤ (10 ^ (28 : Nat)) ^ n * 10 ^ b := Nat.mul_le_mul (Nat.pow_le_pow_left hstep n) h
    _ = 10 ^ (28 * n + b) := by rw [Nat.pow_add, Nat.pow_mul]
    _ ≤ 10 ^ k := Nat.pow_le_pow_right (by decide) hk

theorem ofRatio_of_large {negative : Bool} {n k : Nat} (hk : 310 < k) (h : 10 ^ k ≤ n) :
    ofRatio negative n 1 = infinity negative := by
  obtain ⟨i, hi⟩ : ∃ i, i = 1025 := ⟨_, rfl⟩
  have hpow : 2 ^ i ≤ 10 ^ k :=
    two_pow_le_ten_pow (a := 2) (b := 3) 11 (by decide) (by omega) (by omega)
  have hlarge : 2 ^ (i + 1074) ≤ n * unitsPerOne / 1 := by
    rw [Nat.div_one, Nat.pow_add, unitsPerOne]
    exact Nat.mul_le_mul_right _ (Nat.le_trans hpow h)
  simp only [ofRatio, ofUnits, nearestRank_of_large (by omega) hlarge, infinity]

theorem ofRatio_of_small {negative : Bool} {n k : Nat} (h : n.log2 + 1 + 324 ≤ k) :
    ofRatio negative n (10 ^ k) = zero negative := by
  obtain ⟨i, hi⟩ : ∃ i, i = n.log2 + 1 := ⟨_, rfl⟩
  obtain ⟨j, hj⟩ : ∃ j, j = 1074 := ⟨_, rfl⟩
  have hn : n < 2 ^ i := hi ▸ Nat.lt_log2_self
  have hpow : 2 ^ (j + 1) ≤ 10 ^ (k - i) :=
    two_pow_le_ten_pow (a := 52) (b := 16) 11 (by decide) (by omega) (by omega)
  have hsmall : 2 * (n * unitsPerOne) < 10 ^ k :=
    calc 2 * (n * unitsPerOne) = n * 2 ^ (j + 1) := by
          rw [unitsPerOne, ← hj, Nat.pow_succ, Nat.mul_comm 2, Nat.mul_assoc]
      _ < 2 ^ i * 2 ^ (j + 1) := (Nat.mul_lt_mul_right (Nat.two_pow_pos _)).mpr hn
      _ ≤ 10 ^ i * 10 ^ (k - i) := Nat.mul_le_mul (Nat.pow_le_pow_left (by decide) _) hpow
      _ = 10 ^ k := by rw [← Nat.pow_add, Nat.add_sub_cancel' (by omega)]
  simp only [ofRatio, ofUnits, nearestRank_of_small hsmall, zero]

/-- The binary number is the one nearest to the value. -/
theorem toBinary64_eq_ofRatio (d : Decimal) : d.toBinary64 = ofRatio d.negative d.num d.den := by
  obtain ⟨negative, digits, exponent⟩ := d
  simp only [toBinary64, num, den]
  split
  · next h =>
    subst h
    have hsmall : 2 * (0 * unitsPerOne) < 10 ^ (-exponent).toNat := by
      rw [Nat.zero_mul, Nat.mul_zero]
      exact Nat.pow_pos (by decide)
    simp only [Nat.zero_mul] at hsmall
    simp only [ofRatio, ofUnits, Nat.zero_mul, nearestRank_of_small hsmall, zero]
  · next hdigits =>
    split
    · next hexp =>
      rw [show (-exponent).toNat = 0 by omega, Nat.pow_zero,
        ofRatio_of_large (k := exponent.toNat) (by omega)]
      exact Nat.le_mul_of_pos_left _ (Nat.pos_of_ne_zero hdigits)
    · split
      · rw [show (-exponent).toNat = 0 by omega, Nat.pow_zero]
      · rw [show exponent.toNat = 0 by omega, Nat.pow_zero, Nat.mul_one]
        split
        · rw [ofRatio_of_small (by omega)]
        · rfl

theorem ofRatio_congr {negative : Bool} {num₁ den₁ num₂ den₂ : Nat} (h₁ : 0 < den₁)
    (h₂ : 0 < den₂) (h : num₁ * den₂ = num₂ * den₁) :
    ofRatio negative num₁ den₁ = ofRatio negative num₂ den₂ := by
  have hunits : num₁ * unitsPerOne * den₂ = num₂ * unitsPerOne * den₁ := by
    rw [Nat.mul_right_comm, h, Nat.mul_right_comm]
  simp only [ofRatio, ofUnits, nearestRank_congr h₁ h₂ hunits]

theorem Equal.toBinary64_eq {d₁ d₂ : Decimal} (h : Equal d₁ d₂) :
    d₁.toBinary64 = d₂.toBinary64 := by
  rw [toBinary64_eq_ofRatio, toBinary64_eq_ofRatio, h.negative]
  exact ofRatio_congr d₁.den_pos d₂.den_pos h.value

/-! ## Shortest numbers -/

/-- The decimal number reads back as `x`, sign and all. -/
structure ReadsBack (d : Decimal) (x : Binary64) : Prop where
  negative : d.negative = x.negative
  toBinary64 : d.toBinary64 = x

theorem onGrid?_readsBack {tie : Tie} {x : Binary64} {p : Int} {d : Decimal}
    (h : onGrid? tie x p = some d) : ReadsBack d x := by
  simp only [onGrid?] at h
  split at h
  · next hb ha =>
    have hb := eq_of_beq hb
    have ha := eq_of_beq ha
    split at h
    · cases h
      exact ⟨rfl, hb⟩
    split at h
    · cases h
      exact ⟨rfl, ha⟩
    cases tie with
    | up =>
      cases h
      exact ⟨rfl, ha⟩
    | toEven =>
      dsimp only at h
      split at h <;> cases h
      · exact ⟨rfl, hb⟩
      · exact ⟨rfl, ha⟩
  · next hb _ =>
    cases h
    exact ⟨rfl, eq_of_beq hb⟩
  · next _ ha =>
    cases h
    exact ⟨rfl, eq_of_beq ha⟩
  · cases h

theorem exact_readsBack {x : Binary64} (hx : x.isFinite = true) : ReadsBack (exact x) x := by
  have hk : x.rank < infinityRank := by simpa [isFinite] using hx
  refine ⟨rfl, ?_⟩
  obtain ⟨j, hj⟩ : ∃ j, j = 1074 := ⟨_, rfl⟩
  have hvalue : units x.rank * 5 ^ j * unitsPerOne * 1 = units x.rank * 1 * 10 ^ j := by
    rw [unitsPerOne, ← hj, Nat.mul_one, Nat.mul_one, Nat.mul_assoc, ← Nat.mul_pow]
  have hnum : (exact x).num = units x.rank * 5 ^ j := by
    rw [num, exact, ← hj]
    exact Nat.mul_one _
  have hexp : (-(exact x).exponent).toNat = j := by rw [exact, hj]; rfl
  have hden : (exact x).den = 10 ^ j := by rw [den, hexp]
  rw [toBinary64_eq_ofRatio, hnum, hden]
  simp only [ofRatio, ofUnits, nearestRank_congr (Nat.pow_pos (by decide)) Nat.one_pos hvalue,
    nearestRank_units Nat.one_pos (Nat.le_of_lt hk)]
  rfl

/-- The shortest decimal number of a finite number reads back as it. -/
theorem shortest_readsBack (tie : Tie) {x : Binary64} (hx : x.isFinite = true) :
    ReadsBack (shortest tie x) x := by
  unfold shortest
  split
  · next h0 =>
    have hrank : x.rank = 0 := by simpa [isZero] using h0
    obtain ⟨negative, rank, hlt⟩ := x
    simp only at hrank
    subst hrank
    exact ⟨rfl, rfl⟩
  · simp only []
    cases hs : (List.range 17).findSome? fun (n : Nat) =>
        onGrid? tie x (leadingExponent (units x.rank) - n) with
    | none => exact exact_readsBack hx
    | some d =>
      obtain ⟨n, -, hn⟩ := List.exists_of_findSome?_eq_some hs
      exact onGrid?_readsBack hn

theorem ReadsBack.of_equal {d₁ d₂ : Decimal} {x : Binary64} (h : ReadsBack d₁ x)
    (he : Equal d₁ d₂) : ReadsBack d₂ x :=
  ⟨he.negative ▸ h.negative, he.toBinary64_eq ▸ h.toBinary64⟩

end Criteria.Decimal
