import Criteria.Proofs.Value.Arithmetic

/-!
# Powers of integers

The power of an integer is exact where it fits in 64 bits, unless the exponent takes more than 32
bits. Such an exponent is too large whatever the base is, also for the powers of 0, 1 and -1, which
always fit: they become floating numbers like the powers that do not fit.
-/

namespace Criteria

variable {x y : Int}

/-! ## Exact powers -/

/-- The size of a power and its sign. -/
theorem pow_eq_natAbs_pow (x : Int) (k : Nat) :
    x ^ k = if x < 0 ∧ k % 2 = 1 then -((x.natAbs ^ k : Nat) : Int) else (x.natAbs ^ k : Nat) := by
  cases x with
  | ofNat m =>
    rw [if_neg fun h => absurd h.1 (Int.not_lt.mpr (Int.natCast_nonneg m))]
    rfl
  | negSucc m =>
    rw [Int.negSucc_pow]
    rcases Nat.mod_two_eq_zero_or_one k with hk | hk
    · simp [hk]
    · simp [hk, Int.negSucc_lt_zero, Int.negOfNat_eq]

/-- Powers of 0, 1 and -1 apart, those with an exponent of 64 or more do not fit. -/
theorem not_fits_pow {k : Nat} (hx : 2 ≤ x.natAbs) (hk : 64 ≤ k) : ¬ Fits (x ^ k) := by
  intro hfits
  have hle := hfits.natAbs_le
  rw [Int.natAbs_pow] at hle
  have hlarge : 2 ^ (64 : Nat) ≤ x.natAbs ^ k :=
    calc 2 ^ (64 : Nat) ≤ 2 ^ k := Nat.pow_le_pow_right (by decide) hk
      _ ≤ x.natAbs ^ k := Nat.pow_le_pow_left hx k
  omega

namespace Numeric

/-- The power that is tried for an exponent of 32 bits. -/
theorem intPower?_eq (hy : 0 ≤ y) (h : y < 2 ^ (32 : Nat)) (hsmall : x.natAbs ≤ 1 ∨ y < 64) :
    intPower? x y = if Fits (x ^ y.toNat) then some (x ^ y.toNat) else none := by
  obtain ⟨k, rfl⟩ := Int.eq_ofNat_of_zero_le hy
  have hodd : ((k : Int) % 2 = 1) = (k % 2 = 1) := propext (by omega)
  simp only [intPower?, if_pos (And.intro hy (And.intro h hsmall)), hodd, Int.toNat_natCast,
    ← pow_eq_natAbs_pow]

theorem intPower?_of_fits (hy : 0 ≤ y) (h : y < 2 ^ (32 : Nat)) (hfits : Fits (x ^ y.toNat)) :
    intPower? x y = some (x ^ y.toNat) := by
  -- Exponents from 64 on are tried for 0, 1 and -1 only, since no other power would fit.
  have hsmall : x.natAbs ≤ 1 ∨ y < 64 := by
    refine Decidable.or_iff_not_imp_left.mpr fun hx => Int.not_le.mp fun hlarge => ?_
    exact not_fits_pow (by omega) (by omega) hfits
  rw [intPower?_eq hy h hsmall, if_pos hfits]

theorem intPower?_of_not_fits (hy : 0 ≤ y) (hfits : ¬ Fits (x ^ y.toNat)) :
    intPower? x y = none := by
  by_cases h : y < 2 ^ (32 : Nat) ∧ (x.natAbs ≤ 1 ∨ y < 64)
  · rw [intPower?_eq hy h.1 h.2, if_neg hfits]
  · exact if_neg fun hall => h hall.2

theorem intPower?_of_large (h : 2 ^ (32 : Nat) ≤ y) : intPower? x y = none :=
  if_neg fun hall => absurd hall.2.1 (Int.not_lt.mpr h)

theorem power_of_some {hx : Fits x} {hy : Fits y} {p : Int} (h : intPower? x y = some p)
    (hp : Fits p) : (int x hx).power (int y hy) = int p hp := by
  simp only [power, h, dif_pos hp]

theorem power_of_none {hx : Fits x} {hy : Fits y} (h : intPower? x y = none) :
    (int x hx).power (int y hy) = float ((Binary64.ofInt x).pow (.ofInt y)) := by
  simp only [power, h, toBinary64]

end Numeric

/-! ## Results -/

/-- The result is the power of `x` with the exponent `y`: exact where it fits, but for the powers
of 0, 1 and -1 with an exponent of more than 32 bits. Otherwise it is no integer. -/
structure IsPower (x y : Int) (result : Except ExprError Value) : Prop where
  exact : 2 ≤ x.natAbs ∨ y < 2 ^ (32 : Nat) → Fits (x ^ y.toNat) →
    result = .ok (.ofInt (x ^ y.toNat))
  approximate : ¬ Fits (x ^ y.toNat) ∨ 2 ^ (32 : Nat) ≤ y →
    result = .ok (.ofFloat ((Binary64.ofInt x).pow (.ofInt y))) ∧
      ∀ n, Fits n → result ≠ .ok (.ofInt n)

theorem BinaryOp.isPower_power (hx : Fits x) (hy : Fits y) (hnonneg : 0 ≤ y) :
    IsPower x y (power.apply (.ofInt x) (.ofInt y)) := by
  simp only [apply, onNumbers_ofInt _ _ hx hy]
  constructor
  · intro hrange hfits
    have hlt : y < 2 ^ (32 : Nat) := hrange.elim (fun htwo => Int.not_le.mp fun hlarge =>
      not_fits_pow htwo (by omega) hfits) id
    rw [Numeric.power_of_some (Numeric.intPower?_of_fits hnonneg hlt hfits) hfits]
    rfl
  · intro h
    have hnone : Numeric.intPower? x y = none :=
      h.elim (Numeric.intPower?_of_not_fits hnonneg) Numeric.intPower?_of_large
    rw [Numeric.power_of_none hnone]
    exact ⟨rfl, fun n hn heq => Value.ofFloat_ne_ofInt (.inr hn) (Except.ok.inj heq)⟩

namespace Expr

variable {functions : List Function} {vars : Record} {l r : Expr}

/-- A power of integers is the exact one wherever that fits, but for exponents of more than 32
bits. -/
theorem eval_power (hl : eval functions vars l = .ok (.ofInt x))
    (hr : eval functions vars r = .ok (.ofInt y)) (hx : Fits x) (hy : Fits y) (hnonneg : 0 ≤ y) :
    IsPower x y (eval functions vars (.binary .power l r)) := by
  rw [eval_binary_of_operands rfl (by decide) hl hr]
  exact BinaryOp.isPower_power hx hy hnonneg

/-- The least integer is the greatest power of -2 that fits. -/
theorem eval_power_least :
    (0 : Int) ≤ 63 ∧ Fits (-2) ∧ Fits 63 ∧
      eval [] [("x", .ofInt (-2))] (.binary .power (.name "x") (.const (.ofInt 63))) =
        .ok (.ofInt (-2 ^ (63 : Nat))) := by
  have hl : eval [] [("x", .ofInt (-2))] (.name "x") = .ok (.ofInt (-2)) := by
    simp [eval]
  have hr : eval [] [("x", .ofInt (-2))] (.const (.ofInt 63)) = .ok (.ofInt 63) := by
    rw [eval]
  have hpower := eval_power hl hr (by decide) (by decide) (by decide)
  exact ⟨by decide, by decide, by decide, hpower.exact (.inl (by decide)) (by decide)⟩

/-- All powers of one fit, but the one with the least exponent of 33 bits is no integer. -/
theorem eval_power_one :
    (1 : Int) ^ (2 ^ (32 : Nat) : Int).toNat = 1 ∧
      eval [] [] (.binary .power (.const (.ofInt 1)) (.const (.ofInt (2 ^ (32 : Nat))))) =
        .ok (.ofFloat ((Binary64.ofInt 1).pow (.ofInt (2 ^ (32 : Nat))))) ∧
      eval [] [] (.binary .power (.const (.ofInt 1)) (.const (.ofInt (2 ^ (32 : Nat))))) ≠
        .ok (.ofInt 1) := by
  have happly : eval [] [] (.binary .power (.const (.ofInt 1)) (.const (.ofInt (2 ^ (32 : Nat))))) =
      BinaryOp.power.apply (.ofInt 1) (.ofInt (2 ^ (32 : Nat))) :=
    eval_binary_of_operands rfl (by decide) (by rw [eval]) (by rw [eval])
  have hpower : IsPower 1 (2 ^ (32 : Nat))
      (BinaryOp.power.apply (.ofInt 1) (.ofInt (2 ^ (32 : Nat)))) :=
    BinaryOp.isPower_power (by decide) (by decide) (by decide)
  obtain ⟨hvalue, hne⟩ := hpower.approximate (.inr (Int.le_refl _))
  exact ⟨Int.one_pow, happly.trans hvalue, happly ▸ hne 1 (by decide)⟩

end Expr

end Criteria
