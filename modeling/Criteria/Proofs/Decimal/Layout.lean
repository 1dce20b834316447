import Criteria.Decimal.Layout
import Criteria.Decimal.Numeral
import Criteria.Proofs.Decimal.Value

/-!
# The source text of floating numbers

The source text of a finite number is a numeral with a point or an exponent, behind a
minus sign if the number is negative, and the numeral denotes the number.
-/

namespace Criteria

namespace Text

theorem digitsValue_append (l m : List Char) :
    digitsValue (l ++ m) = digitsValue l * 10 ^ m.length + digitsValue m := by
  have h : digitsValue (l ++ m) = Nat.ofDigitChars 10 m (digitsValue l) := by
    simp [digitsValue, Nat.ofDigitChars, digitValue]
  rw [h, Nat.ofDigitChars_eq_ofDigitChars_zero, Nat.mul_comm]
  rfl

@[simp] theorem digitsValue_replicate_zero (n : Nat) :
    digitsValue (List.replicate n '0') = 0 := by
  have h : digitsValue (List.replicate n '0') = Nat.ofDigitChars 10 (List.replicate n '0') 0 := rfl
  rw [h, Nat.ofDigitChars_replicate_zero, Nat.mul_zero]

@[simp] theorem digitsValue_toDigits (n : Nat) : digitsValue (Nat.toDigits 10 n) = n :=
  Nat.ofDigitChars_ten_toDigits

theorem isAsciiDigit_of_mem_toDigits {c : Char} {n : Nat} (h : c ∈ Nat.toDigits 10 n) :
    isAsciiDigit c = true := by
  have hc := Nat.isDigit_of_mem_toDigits (by decide) (by decide) h
  simpa [Char.isDigit, isAsciiDigit, Char.le_def] using hc

end Text

open Text

/-- Digits, at least one. -/
structure IsDigits (cs : List Char) : Prop where
  ne_nil : cs ≠ []
  digit : ∀ c ∈ cs, isAsciiDigit c = true

theorem isDigits_toDigits (n : Nat) : IsDigits (Nat.toDigits 10 n) :=
  ⟨Nat.toDigits_ne_nil, fun _ => isAsciiDigit_of_mem_toDigits⟩

theorem isDigits_zero : IsDigits ['0'] := by
  refine ⟨by simp, fun c hc => ?_⟩
  obtain rfl := List.mem_singleton.mp hc
  rfl

theorem IsDigits.append_zeros {cs : List Char} (h : IsDigits cs) (n : Nat) :
    IsDigits (cs ++ List.replicate n '0') := by
  refine ⟨by simp [h.ne_nil], fun c hc => ?_⟩
  rcases List.mem_append.mp hc with hc | hc
  · exact h.digit c hc
  · obtain rfl := List.eq_of_mem_replicate hc
    decide

theorem IsDigits.zeros_append {cs : List Char} (h : IsDigits cs) (n : Nat) :
    IsDigits (List.replicate n '0' ++ cs) := by
  refine ⟨by simp [h.ne_nil], fun c hc => ?_⟩
  rcases List.mem_append.mp hc with hc | hc
  · obtain rfl := List.eq_of_mem_replicate hc
    decide
  · exact h.digit c hc

/-- The parts of a numeral without a sign, as they are written: digits, digits behind a
point, and the sign and the digits behind the mark of an exponent. -/
structure Written where
  whole : List Char
  fraction : Option (List Char)
  exponent : Option (Bool × List Char)

namespace Written

def fractionText : Option (List Char) → List Char
  | none => []
  | some digits => '.' :: digits

def exponentText : Option (Bool × List Char) → List Char
  | none => []
  | some (negative, digits) => 'e' :: (if negative then '-' else '+') :: digits

def text (w : Written) : List Char :=
  w.whole ++ (fractionText w.fraction ++ exponentText w.exponent)

def exponentValue : Bool × List Char → Int
  | (negative, digits) => if negative then -(digitsValue digits : Int) else digitsValue digits

def numeral (w : Written) : Numeral :=
  ⟨false, w.whole, w.fraction, w.exponent.map exponentValue⟩

/-- Every part that is there has digits. -/
structure Proper (w : Written) : Prop where
  whole : IsDigits w.whole
  fraction : ∀ digits ∈ w.fraction, IsDigits digits
  exponent : ∀ e ∈ w.exponent, IsDigits e.2

theorem proper_toDigits (n : Nat) : (⟨Nat.toDigits 10 n, none, none⟩ : Written).Proper :=
  ⟨isDigits_toDigits n, by simp, by simp⟩

theorem text_of_whole (digits : List Char) : (⟨digits, none, none⟩ : Written).text = digits := by
  simp [text, fractionText, exponentText]

theorem toNumeric_toDigits {n : Nat} (h : Fits n) :
    (⟨Nat.toDigits 10 n, none, none⟩ : Written).numeral.toNumeric = .int n h := by
  simp [numeral, Numeral.toNumeric, Numeral.wholeValue, Numeric.ofInt, h]

/-- What the digits of a text and the power of ten of the last one say. -/
structure Denotes (w : Written) (digits : List Char) (exponent : Int) : Prop where
  proper : w.Proper
  notInt : w.fraction.isNone = true → w.exponent.isNone = true → False
  equal : Decimal.Equal
    (.ofParts false w.whole (w.fraction.getD []) ((w.exponent.map exponentValue).getD 0))
    ⟨false, digitsValue digits, exponent⟩

end Written

namespace Decimal

open Written

/-- Decimal numbers with the same sign, digits and exponent are equal. -/
theorem equal_of_eq {d₁ d₂ : Decimal} (h : d₁ = d₂) : Equal d₁ d₂ :=
  h ▸ ⟨rfl, rfl⟩

theorem positional_denotes {digits : List Char} (hd : IsDigits digits) (exponent : Int) :
    ∃ w, Denotes w digits exponent ∧ w.text = positional digits exponent ['.', '0'] := by
  unfold positional
  split
  · next he =>
    refine ⟨⟨digits ++ List.replicate exponent.toNat '0', some ['0'], none⟩, ?_, ?_⟩
    · refine ⟨⟨hd.append_zeros _, ?_, by simp⟩, by simp, rfl, ?_⟩
      · rintro _ ⟨⟩
        exact isDigits_zero
      · have hneg : (-exponent).toNat = 0 := by omega
        have hzero : digitsValue ['0'] = 0 := rfl
        simp [ofParts, num, den, digitsValue_append, hneg, hzero, Nat.pow_succ, Nat.mul_assoc]
    · simp [Written.text, fractionText, exponentText]
  · next he =>
    dsimp only
    split
    · next hp =>
      refine ⟨⟨digits.take (digits.length - (-exponent).toNat),
        some (digits.drop (digits.length - (-exponent).toNat)), none⟩, ?_, ?_⟩
      · refine ⟨⟨⟨?_, fun c hc => hd.digit c (List.mem_of_mem_take hc)⟩, ?_, by simp⟩, by simp, ?_⟩
        · simp only [ne_eq, List.take_eq_nil_iff, hd.ne_nil, or_false]
          omega
        · rintro _ ⟨⟩
          refine ⟨?_, fun c hc => hd.digit c (List.mem_of_mem_drop hc)⟩
          simp only [ne_eq, List.drop_eq_nil_iff]
          omega
        · apply equal_of_eq
          simp only [ofParts, Option.getD_some, List.take_append_drop, List.length_drop,
            Option.map_none, Option.getD_none, Decimal.mk.injEq, true_and]
          omega
      · simp [Written.text, fractionText, exponentText]
    · next hp =>
      refine ⟨⟨['0'], some (List.replicate ((-exponent).toNat - digits.length) '0' ++ digits), none⟩,
        ?_, ?_⟩
      · refine ⟨⟨isDigits_zero, ?_, by simp⟩, by simp, ?_⟩
        · rintro _ ⟨⟩
          exact hd.zeros_append _
        · apply equal_of_eq
          have hzero : digitsValue ['0'] = 0 := rfl
          simp only [ofParts, Option.getD_some, digitsValue_append, hzero, Nat.zero_mul,
            Nat.zero_add, digitsValue_replicate_zero, List.length_append, List.length_replicate,
            Option.map_none, Option.getD_none, Decimal.mk.injEq, true_and]
          omega
      · simp [Written.text, fractionText, exponentText]

/-- In plain text an integral number has no point. -/
theorem positional_proper {digits : List Char} (hd : IsDigits digits) (exponent : Int) :
    ∃ w : Written, w.Proper ∧ w.text = positional digits exponent [] := by
  by_cases he : 0 ≤ exponent
  · refine ⟨⟨digits ++ List.replicate exponent.toNat '0', none, none⟩,
      ⟨hd.append_zeros _, by simp, by simp⟩, ?_⟩
    simp [positional, he, text_of_whole]
  · obtain ⟨w, hw, htext⟩ := positional_denotes hd exponent
    exact ⟨w, hw.proper, by simp only [htext, positional, if_neg he]⟩

theorem exponentValue_mark (k : Int) :
    exponentValue (decide (k < 0), Nat.toDigits 10 k.natAbs) = k := by
  simp only [exponentValue, digitsValue_toDigits, decide_eq_true_eq]
  split <;> omega

theorem withExponent_denotes {digits : List Char} (hd : IsDigits digits) (exponent : Int) {k : Int}
    (hk : k = exponent + digits.length - 1) :
    ∃ w, Denotes w digits exponent ∧ w.text = withExponent digits k := by
  obtain ⟨d, ds, rfl⟩ := List.exists_cons_of_ne_nil hd.ne_nil
  have hdigit : IsDigits [d] := ⟨by simp, by simpa using hd.digit d (by simp)⟩
  have hexp : ∀ e ∈ some (decide (k < 0), Nat.toDigits 10 k.natAbs), IsDigits e.2 := by
    rintro _ ⟨⟩
    exact isDigits_toDigits _
  cases ds with
  | nil =>
    refine ⟨⟨[d], none, some (_, _)⟩, ⟨⟨hdigit, by simp, hexp⟩, by simp, ?_⟩, ?_⟩
    · apply equal_of_eq
      simp only [ofParts, Option.map_some, Option.getD_some, Option.getD_none, exponentValue_mark]
      simp [hk]
    · simp [Written.text, fractionText, exponentText, withExponent]
  | cons c ds =>
    refine ⟨⟨[d], some (c :: ds), some (_, _)⟩, ⟨⟨hdigit, ?_, hexp⟩, by simp, ?_⟩, ?_⟩
    · rintro _ ⟨⟩
      exact ⟨by simp, fun x hx => hd.digit x (List.mem_cons_of_mem d hx)⟩
    · apply equal_of_eq
      simp only [ofParts, Option.map_some, Option.getD_some, exponentValue_mark]
      simp [hk]
      omega
    · simp [Written.text, fractionText, exponentText, withExponent]

theorem significant_spec {n : Nat} (hn : n ≠ 0) :
    IsDigits (significant n).1 ∧ digitsValue (significant n).1 * 10 ^ (significant n).2 = n := by
  obtain ⟨kept, hkept⟩ : ∃ kept, kept = (Nat.toDigits 10 n).reverse.dropWhile (· == '0') :=
    ⟨_, rfl⟩
  obtain ⟨zeros, hzeros⟩ : ∃ zeros, zeros = (Nat.toDigits 10 n).reverse.takeWhile (· == '0') :=
    ⟨_, rfl⟩
  have hall : (Nat.toDigits 10 n).reverse = zeros ++ kept := by
    rw [hkept, hzeros, List.takeWhile_append_dropWhile]
  have hzero : zeros = List.replicate zeros.length '0' := by
    refine List.eq_replicate_iff.mpr ⟨rfl, fun c hc => ?_⟩
    rw [hzeros] at hc
    simpa using List.all_eq_true.mp List.all_takeWhile c hc
  have hdigits : Nat.toDigits 10 n = kept.reverse ++ List.replicate zeros.length '0' := by
    rw [← List.reverse_reverse (Nat.toDigits 10 n), hall, List.reverse_append]
    congr 1
    rw [hzero, List.reverse_replicate, List.length_replicate]
  have hvalue : digitsValue kept.reverse * 10 ^ zeros.length = n := by
    rw [← digitsValue_toDigits n, hdigits, digitsValue_append, digitsValue_replicate_zero,
      List.length_replicate, Nat.add_zero]
  have hspec : significant n = (kept.reverse, zeros.length) := by
    have hlen : (Nat.toDigits 10 n).reverse.length = zeros.length + kept.length := by
      rw [hall, List.length_append]
    simp only [significant, ← hkept, hlen, Nat.add_sub_cancel]
  rw [hspec]
  refine ⟨⟨?_, fun c hc => ?_⟩, hvalue⟩
  · intro hnil
    have hnil : kept.reverse = [] := hnil
    rw [hnil] at hvalue
    exact hn (hvalue ▸ Nat.zero_mul _)
  · exact isAsciiDigit_of_mem_toDigits (hdigits ▸ List.mem_append_left _ hc)

/-- Zeros at the end of the digits are as good as a higher power of ten. -/
theorem equal_of_zeros (negative : Bool) {digits n zeros : Nat} (exponent : Int)
    (h : digits * 10 ^ zeros = n) :
    Equal ⟨negative, n, exponent⟩ ⟨negative, digits, exponent + zeros⟩ := by
  refine ⟨rfl, ?_⟩
  simp only [num, den, ← h, Nat.mul_assoc, ← Nat.pow_add]
  congr 2
  omega

end Decimal

namespace Binary64

open Decimal Written

/-- A number without its sign. -/
def magnitude (x : Binary64) : Binary64 := { x with negative := false }

theorem shortest_digits_ne_zero (tie : Tie) {x : Binary64} (hx : x.isFinite = true)
    (h0 : x.isZero = false) : (shortest tie x).digits ≠ 0 := by
  intro hd
  have hback := (shortest_readsBack tie hx).toBinary64
  simp only [toBinary64, hd, if_true] at hback
  rw [← hback] at h0
  cases h0

theorem shortestDigits_spec (tie : Tie) {x : Binary64} (hx : x.isFinite = true)
    (h0 : x.isZero = false) :
    IsDigits (x.shortestDigits tie).1 ∧
      ReadsBack ⟨x.negative, digitsValue (x.shortestDigits tie).1, (x.shortestDigits tie).2⟩ x := by
  obtain ⟨hd, hv⟩ := significant_spec (shortest_digits_ne_zero tie hx h0)
  have hback := shortest_readsBack tie hx
  refine ⟨hd, hback.of_equal ?_⟩
  have he := equal_of_zeros x.negative (shortest tie x).exponent hv
  rwa [← hback.negative] at he ⊢

theorem toBinary64_magnitude {d : Decimal} {x : Binary64} (h : ReadsBack d x) :
    (⟨false, d.digits, d.exponent⟩ : Decimal).toBinary64 = x.magnitude := by
  have hx := h.toBinary64
  rw [toBinary64_eq_ofRatio] at hx ⊢
  rw [← hx]
  rfl

theorem toNumeric_of_denotes {w : Written} {digits : List Char} {exponent : Int} {x : Binary64}
    (hw : Denotes w digits exponent) (hx : ReadsBack ⟨x.negative, digitsValue digits, exponent⟩ x) :
    w.numeral.toNumeric = .float x.magnitude := by
  have hnot : (w.fraction.isNone && (w.exponent.map exponentValue).isNone) = false := by
    rw [Bool.eq_false_iff]
    intro h
    obtain ⟨hf, he⟩ := Bool.and_eq_true_iff.mp h
    exact hw.notInt hf (by simpa using he)
  have hvalue := hw.equal.toBinary64_eq.trans (toBinary64_magnitude hx)
  simp only [Numeral.toNumeric, Written.numeral, hnot, Numeral.toBinary64]
  exact congrArg Numeric.float hvalue

/-- Behind its sign, the source text of a finite number is a numeral that denotes it. -/
theorem sourceText_written {x : Binary64} (hx : x.isFinite = true) :
    ∃ w : Written, w.Proper ∧ w.numeral.toNumeric = .float x.magnitude ∧
      x.sourceText = sign x.negative ++ w.text := by
  unfold sourceText
  cases h0 : x.isZero
  · obtain ⟨hd, hback⟩ := shortestDigits_spec .toEven hx h0
    simp only [Bool.false_eq_true, if_false]
    split
    · obtain ⟨w, hw, htext⟩ := positional_denotes hd (x.shortestDigits .toEven).2
      exact ⟨w, hw.proper, toNumeric_of_denotes hw hback, by rw [htext]⟩
    · obtain ⟨w, hw, htext⟩ := withExponent_denotes hd (x.shortestDigits .toEven).2 rfl
      exact ⟨w, hw.proper, toNumeric_of_denotes hw hback, by rw [htext]⟩
  · obtain ⟨negative, rank, hlt⟩ := x
    obtain rfl : rank = 0 := by simpa [isZero] using h0
    refine ⟨⟨['0'], some ['0'], none⟩, ⟨isDigits_zero, ?_, by simp⟩, rfl, rfl⟩
    rintro _ ⟨⟩
    exact isDigits_zero

theorem plainText_eq {x : Binary64} (hx : x.isFinite = true) (h0 : x.isZero = false) :
    x.plainText =
      sign x.negative ++ positional (x.shortestDigits .up).1 (x.shortestDigits .up).2 [] := by
  have hrank : x.rank < infinityRank := of_decide_eq_true hx
  have hinf : x.isInfinite = false := beq_false_of_ne (by omega)
  simp only [plainText, isNaN_of_isFinite hx, hinf, h0, Bool.false_eq_true, if_false]

/-- A negative integer is rounded like its size. -/
theorem neg_ofInt_natAbs {n : Int} (h : n < 0) : (ofInt n.natAbs).neg = ofInt n := by
  have hsize : decide ((n.natAbs : Int) < 0) = false := decide_eq_false (by omega)
  simp only [ofInt, ofRatio, ofUnits, neg, hsize, decide_eq_true h, Int.natAbs_natCast,
    Bool.not_false]

theorem truncate_mem (x : Binary64) {low high : Int} (hlow : low ≤ 0) (hhigh : 0 ≤ high) :
    low ≤ x.truncate low high ∧ x.truncate low high ≤ high := by
  unfold truncate
  dsimp only
  split <;> omega

/-- Zero is written as an integer. -/
theorem isSmall_of_isZero {x : Binary64} (h : x.isZero = true) :
    (x.isIntegral && units x.rank < 10 ^ (15 : Nat) * unitsPerOne) = true := by
  have hrank : x.rank = 0 := eq_of_beq h
  have hunits : units x.rank = 0 := congrArg units hrank
  have hfinite : x.isFinite = true := by
    rw [isFinite, hrank]
    decide
  have hpos : 0 < 10 ^ (15 : Nat) * unitsPerOne := Nat.mul_pos (by decide) unitsPerOne_pos
  rw [isIntegral, hfinite, hunits, Nat.zero_mod, decide_eq_true hpos]
  rfl

/-- As a string operand a finite number is a numeral behind a sign too. -/
theorem scalarText_written {x : Binary64} (hx : x.isFinite = true) :
    ∃ (negative : Bool) (w : Written), w.Proper ∧ x.scalarText = sign negative ++ w.text := by
  unfold scalarText
  split
  · obtain ⟨n, hn⟩ : ∃ n, n = x.truncate (-(10 ^ (15 : Nat))) (10 ^ (15 : Nat)) := ⟨_, rfl⟩
    refine ⟨decide (n < 0), ⟨Nat.toDigits 10 n.natAbs, none, none⟩, proper_toDigits _, ?_⟩
    rw [text_of_whole, hn]
  · next hlarge =>
    have h0 : x.isZero = false := Bool.eq_false_iff.mpr fun h => hlarge (isSmall_of_isZero h)
    obtain ⟨hd, -⟩ := shortestDigits_spec .up hx h0
    obtain ⟨w, hw, htext⟩ := positional_proper hd (x.shortestDigits .up).2
    exact ⟨_, w, hw, by rw [plainText_eq hx h0, htext]⟩

end Binary64

end Criteria
