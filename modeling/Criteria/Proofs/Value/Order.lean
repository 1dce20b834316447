import Criteria.Expr.Apply
import Criteria.Proofs.Value.Numeral

/-!
# The order of values

Any two values are equal or not, but only numbers, numerals and strings have an order. The two are
decided by different rules, which agree wherever both of them have an answer: of two values that
have an order, one is less than the other or they are loosely equal. No number of a value is a NaN,
so that two values with numbers always have an order.
-/

namespace Criteria

theorem Number.isFinite_toNumeric (n : Number) : n.toNumeric.toBinary64.isFinite = true := by
  cases n with
  | int n lower upper =>
    have hfinite : (Binary64.ofInt n).isFinite = true := Binary64.isFinite_ofInt (by omega)
    rw [toNumeric, Numeric.ofInt]
    split <;> exact hfinite
  | float x finite => exact finite

/-! ## The order of numbers -/

namespace Binary64

theorem compare?_of_not_isNaN {x y : Binary64} (hx : x.isNaN = false) (hy : y.isNaN = false) :
    x.compare? y = some (compare x.key y.key) := by
  simp [compare?, hx, hy]

theorem compare?_swap (x y : Binary64) : y.compare? x = (x.compare? y).map Ordering.swap := by
  by_cases h : (x.isNaN || y.isNaN) = true
  · simp [compare?, h, Bool.or_comm y.isNaN]
  · have hkeys : compare y.key x.key = (compare x.key y.key).swap := Std.OrientedOrd.eq_swap
    simp [compare?, h, Bool.or_comm y.isNaN, hkeys]

end Binary64

namespace Numeric

/-- The number of a text may be infinite, but it is a number. -/
theorem isNaN_of_ofText? {s : String} {a : Numeric} (h : Numeric.ofText? s = some a) :
    a.toBinary64.isNaN = false := by
  obtain ⟨n, -, rfl⟩ := Option.map_eq_some_iff.mp h
  exact n.isNaN_toNumeric

theorem compare?_self {a : Numeric} (h : a.toBinary64.isNaN = false) : a.compare? a = some .eq := by
  cases a with
  | int n fits => simp [compare?]
  | float x => exact Binary64.compare?_eq h h rfl

theorem compare?_swap (a b : Numeric) : b.compare? a = (a.compare? b).map Ordering.swap := by
  have hfloats := Binary64.compare?_swap a.toBinary64 b.toBinary64
  cases a with
  | int m hm =>
    cases b with
    | int n hn => exact congrArg some Std.OrientedOrd.eq_swap
    | float y => exact hfloats
  | float x => cases b <;> exact hfloats

theorem exists_compare? {a b : Numeric} (ha : a.toBinary64.isNaN = false)
    (hb : b.toBinary64.isNaN = false) : ∃ o, a.compare? b = some o := by
  have hfloats := Binary64.compare?_of_not_isNaN ha hb
  cases a with
  | int m hm =>
    cases b with
    | int n hn => exact ⟨compare m n, rfl⟩
    | float y => exact ⟨_, hfloats⟩
  | float x => cases b <;> exact ⟨_, hfloats⟩

end Numeric

/-! ## The order of values -/

namespace Value

theorem isNaN_of_numeric? {v : Value} {a : Numeric} (h : v.numeric? = some a) :
    a.toBinary64.isNaN = false := by
  cases v with
  | number n =>
    have hn : n.toNumeric = a := Option.some.inj h
    rw [← hn]
    exact Binary64.isNaN_of_isFinite n.isFinite_toNumeric
  | string s => exact Numeric.isNaN_of_ofText? h
  | _ => cases h

theorem numericEq_comm (a b : Numeric) : numericEq a b = numericEq b a := by
  rw [numericEq, numericEq, Numeric.compare?_swap a b]
  cases a.compare? b with
  | none => rfl
  | some o => cases o <;> rfl

section

variable {v w : Value} {a b : Numeric} (hv : v.numeric? = some a) (hw : w.numeric? = some b)

include hv hw

/-- Values with numbers are compared by their numbers alone. -/
theorem compare?_of_numeric? : v.compare? w = a.compare? b := by
  simp only [compare?, hv, hw]

theorem looseEq_of_numeric? : v.looseEq w = numericEq a b := by
  cases v with
  | number m =>
    have hm : m.toNumeric = a := Option.some.inj hv
    cases w with
    | number n =>
      have hn : n.toNumeric = b := Option.some.inj hw
      rw [looseEq, hm, hn]
    | string t =>
      have ht : Numeric.ofText? t = some b := hw
      simp only [looseEq, numberEqString, ht, hm]
    | _ => cases hw
  | string s =>
    have hs : Numeric.ofText? s = some a := hv
    cases w with
    | number n =>
      -- Of a number and a text, the number always comes first.
      have hn : n.toNumeric = b := Option.some.inj hw
      simp only [looseEq, numberEqString, hs, hn]
      exact numericEq_comm b a
    | string t =>
      have ht : Numeric.ofText? t = some b := hw
      simp only [looseEq, stringEq, hs, ht]
    | _ => cases hw
  | _ => cases hv

end

/-- The rule by which two values are compared: as numbers, as texts, or not at all. -/
inductive Compared : Value → Value → Prop
  | numbers {l r : Value} {a b : Numeric} (hl : l.numeric? = some a) (hr : r.numeric? = some b) :
      Compared l r
  | texts {s t : String} (h : Numeric.ofText? s = none ∨ Numeric.ofText? t = none) :
      Compared (.string s) (.string t)
  | never {l r : Value} (h : l.compare? r = none) (h' : r.compare? l = none) : Compared l r

theorem compare?_of_not_numbers (l r : Value) : l.numeric? = none ∨ r.numeric? = none →
    l.compare? r =
      match l, r with
      | .string s, .string t => some (compare s t)
      | _, _ => none := by
  intro h
  unfold compare?
  split
  · next a b ha hb => rcases h with h | h <;> simp_all
  · rfl

theorem compare?_of_texts {s t : String}
    (h : Numeric.ofText? s = none ∨ Numeric.ofText? t = none) :
    (Value.string s).compare? (.string t) = some (compare s t) :=
  compare?_of_not_numbers (.string s) (.string t) h

theorem compared (l r : Value) : Compared l r := by
  by_cases h : l.numeric? = none ∨ r.numeric? = none
  · have hl := compare?_of_not_numbers l r h
    have hr := compare?_of_not_numbers r l h.symm
    cases l with
    | string s =>
      cases r with
      | string t => exact .texts h
      | _ => exact .never hl hr
    | _ => exact .never hl (by cases r <;> exact hr)
  · obtain ⟨hl, hr⟩ := not_or.mp h
    obtain ⟨a, ha⟩ := Option.ne_none_iff_exists'.mp hl
    obtain ⟨b, hb⟩ := Option.ne_none_iff_exists'.mp hr
    exact .numbers ha hb

theorem compare?_number_self (n : Number) :
    (Value.number n).compare? (.number n) = some .eq := by
  have hn : (Value.number n).numeric? = some n.toNumeric := rfl
  rw [compare?_of_numeric? hn hn]
  exact Numeric.compare?_self (isNaN_of_numeric? hn)

theorem compare?_string_self (s : String) :
    (Value.string s).compare? (.string s) = some .eq := by
  cases h : Numeric.ofText? s with
  | none => exact (compare?_of_texts (.inl h)).trans (congrArg some Std.ReflCmp.compare_self)
  | some a =>
    have hs : (Value.string s).numeric? = some a := h
    rw [compare?_of_numeric? hs hs]
    exact Numeric.compare?_self (isNaN_of_numeric? hs)

theorem compare?_swap (l r : Value) : r.compare? l = (l.compare? r).map Ordering.swap := by
  cases compared l r with
  | numbers hl hr =>
    rw [compare?_of_numeric? hl hr, compare?_of_numeric? hr hl]
    exact Numeric.compare?_swap _ _
  | texts h =>
    rw [compare?_of_texts h, compare?_of_texts h.symm]
    exact congrArg some Std.OrientedOrd.eq_swap
  | never h h' =>
    rw [h, h']
    rfl

theorem stringEq_of_not_numerals {s t : String}
    (h : Numeric.ofText? s = none ∨ Numeric.ofText? t = none) : stringEq s t = (s == t) := by
  unfold stringEq
  split
  · next a b ha hb => rcases h with h | h <;> simp_all
  · rfl

/-- Where two values have an order, they are loosely equal if the order says so. -/
theorem looseEq_of_compare? {l r : Value} {o : Ordering} (h : l.compare? r = some o) :
    l.looseEq r = (o == .eq) := by
  cases compared l r with
  | numbers hl hr =>
    rw [compare?_of_numeric? hl hr] at h
    rw [looseEq_of_numeric? hl hr, numericEq, h]
    rfl
  | @texts s t hnot =>
    rw [compare?_of_texts hnot] at h
    have ho : compare s t = o := Option.some.inj h
    rw [looseEq, stringEq_of_not_numerals hnot, ← ho, Bool.eq_iff_iff, beq_iff_eq, beq_iff_eq]
    exact Std.compare_eq_iff_eq.symm
  | never hnone =>
    rw [hnone] at h
    cases h

/-! ## The operators -/

/-- What the five operators say of two values that have an order. -/
structure Verdicts (l r : Value) (lt eq gt : Bool) : Prop where
  less : BinaryOp.less.apply l r = .ok (.bool lt)
  equal : BinaryOp.equal.apply l r = .ok (.bool eq)
  greater : BinaryOp.greater.apply l r = .ok (.bool gt)
  lessOrEqual : BinaryOp.lessOrEqual.apply l r = .ok (.bool (lt || eq))
  greaterOrEqual : BinaryOp.greaterOrEqual.apply l r = .ok (.bool (gt || eq))

/-- The operators that ask for an order refuse the two values. -/
def Unordered (l r : Value) : Prop :=
  ∀ op ∈ [BinaryOp.less, .lessOrEqual, .greater, .greaterOrEqual],
    op.apply l r = .error (.typeMismatch op.symbol l.kind r.kind)

theorem compareAs_of_compare? {l r : Value} {o : Ordering} (h : l.compare? r = some o)
    (operator : String) : BinaryOp.compareAs operator l r = .ok o := by
  rw [BinaryOp.compareAs, h]

theorem verdicts_of_compare? {l r : Value} {o : Ordering} (h : l.compare? r = some o) :
    Verdicts l r (o == .lt) (o == .eq) (o == .gt) := by
  have hcompare := compareAs_of_compare? h
  constructor
  · rw [BinaryOp.apply, hcompare]
    rfl
  · rw [BinaryOp.apply, looseEq_of_compare? h]
  · rw [BinaryOp.apply, hcompare]
    rfl
  · rw [BinaryOp.apply, hcompare]
    cases o <;> rfl
  · rw [BinaryOp.apply, hcompare]
    cases o <;> rfl

theorem unordered_of_compare? {l r : Value} (h : l.compare? r = none) : Unordered l r := by
  have hcompare (operator : String) :
      BinaryOp.compareAs operator l r = .error (.typeMismatch operator l.kind r.kind) := by
    rw [BinaryOp.compareAs, h, mismatch]
  intro op hop
  simp only [List.mem_cons, List.not_mem_nil, or_false] at hop
  rcases hop with rfl | rfl | rfl | rfl <;> rw [BinaryOp.apply, hcompare] <;> rfl

/-- Either two values have no order in either direction, or exactly one of less, equal and
greater holds of them, from which the other operators and the other direction follow. -/
theorem unordered_or_verdicts (l r : Value) :
    (Unordered l r ∧ Unordered r l) ∨
      ∃ lt eq gt : Bool, [lt, eq, gt].count true = 1 ∧
        Verdicts l r lt eq gt ∧ Verdicts r l gt eq lt := by
  have hswap := compare?_swap l r
  cases h : l.compare? r with
  | none =>
    rw [h] at hswap
    exact .inl ⟨unordered_of_compare? h, unordered_of_compare? hswap⟩
  | some o =>
    rw [h] at hswap
    have hmirrored := verdicts_of_compare? hswap
    refine .inr ⟨o == .lt, o == .eq, o == .gt, by cases o <;> rfl, verdicts_of_compare? h, ?_⟩
    cases o <;> exact hmirrored

end Value

end Criteria
