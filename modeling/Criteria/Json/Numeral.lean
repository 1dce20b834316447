import Criteria.Binary64.Arithmetic
import Criteria.Decimal.Numeral
import Criteria.Text.Taken

/-!
# Numbers in JSON text

A numeral without point and exponent is an integer as far as 64 bits hold it, signed
or not; minus zero is a floating number. Every other numeral is a floating number
found in two roundings: its digits are collected as far as 64 bits hold them, and the
nearest floating number is then scaled by a power of ten. A numeral beyond the range
of floating numbers is none.
-/

namespace Criteria.Json

/-- What is wrong with a text that is no JSON: it ends too early, or its wording. -/
inductive Fault where
  | ended
  | malformed
  deriving DecidableEq, Repr

/-- What is said of a text that is no JSON. Neither the fault nor its place is told. -/
def Fault.text : Fault → String
  | ended | malformed => "<json>"

/-- The fault of a text that lacks something at its front. -/
def faultAt : List Char → Fault
  | [] => .ended
  | _ :: _ => .malformed

/-- The floating number nearest to a power of ten. -/
def powerOfTen (n : Nat) : Binary64 :=
  Decimal.toBinary64 ⟨false, 1, n⟩

/-- A floating number times a power of ten, in steps that floating numbers can hold.
Nothing beyond their range comes out. -/
def scale? (x : Binary64) (exponent : Int) : Option Binary64 :=
  if 308 < exponent then if x.isZero then some x else none
  else if 0 ≤ exponent then
    let product := x.mul (powerOfTen exponent.toNat)
    if product.isFinite then some product else none
  else if -308 ≤ exponent then some (x.div (powerOfTen (-exponent).toNat))
  else if x.isZero then some x
  else scale? (x.div (powerOfTen 308)) (exponent + 308)
termination_by (-exponent).toNat
decreasing_by omega

/-- The number read from collected digits and a power of ten. -/
def float? (negative : Bool) (digits : Nat) (exponent : Int) : Option Number :=
  (scale? (.ofInt digits) exponent).bind fun x =>
    let x := if negative then x.neg else x
    if h : x.isFinite = true then some (.float x h) else none

/-- The integer, or a floating number where it is minus zero or does not fit. -/
def integer? (negative : Bool) (digits : Nat) : Option Number :=
  let n : Int := if negative then -(digits : Int) else digits
  if h : -2 ^ (63 : Nat) ≤ n ∧ n < 2 ^ (64 : Nat) ∧ ¬(negative = true ∧ digits = 0) then
    some (.int n h.1 h.2.1)
  else float? negative digits 0

/-- Collects digits behind those that make up `digits`, as long as 64 bits hold the
number: the number, how many digits were added, and the rest. -/
def collect (digits added : Nat) (cs : List Char) : Nat × Nat × List Char :=
  match cs with
  | [] => (digits, added, [])
  | c :: cs =>
    if Text.isAsciiDigit c && 10 * digits + Text.digitValue c < 2 ^ (64 : Nat) then
      collect (10 * digits + Text.digitValue c) (added + 1) cs
    else (digits, added, c :: cs)

/-- The digits of the integer part and the power of ten for those that were too many. -/
def wholePart (cs : List Char) : Except Fault (Nat × Nat × List Char) :=
  match cs with
  | [] => .error .ended
  | '0' :: cs => if cs.head?.any Text.isAsciiDigit then .error .malformed else .ok (0, 0, cs)
  | c :: cs =>
    if !Text.isAsciiDigit c then .error .malformed
    else
      let (digits, _, rest) := collect (Text.digitValue c) 0 cs
      .ok (digits, (rest.takeWhile Text.isAsciiDigit).length, rest.dropWhile Text.isAsciiDigit)

/-- The digits with those behind a point, and how many were added. Digits that do not
fit any more are left out. -/
def fractionPart (digits : Nat) (cs : List Char) : Except Fault (Nat × Nat × List Char) :=
  if cs.head?.any Text.isAsciiDigit then
    let (digits, added, rest) := collect digits 0 cs
    .ok (digits, added, rest.dropWhile Text.isAsciiDigit)
  else .error (faultAt cs)

/-- The exponent behind its letter. -/
def exponentPart (cs : List Char) : Except Fault (Int × List Char) :=
  let digits := (Numeral.splitSign cs).2.takeWhile Text.isAsciiDigit
  let n : Int := Text.digitsValue digits
  if digits.isEmpty then .error (faultAt (Numeral.splitSign cs).2)
  else
    .ok (if (Numeral.splitSign cs).1 then -n else n, (Numeral.splitSign cs).2.drop digits.length)

/-- The exponent, if the text goes on with one. -/
def exponentPart? (cs : List Char) : Except Fault (Option Int × List Char) :=
  match cs with
  | 'e' :: cs | 'E' :: cs => do
    let (n, rest) ← exponentPart cs
    return (some n, rest)
  | cs => .ok (none, cs)

/-- The number with the given digits and powers of ten. An exponent that 32 bits do not
hold leaves zero alone and makes every other number too large or zero. -/
def numberOf (negative : Bool) (digits : Nat) (shift : Int) (exponent : Option Int) :
    Except Fault Number :=
  let n? := match exponent with
    | none => float? negative digits shift
    | some e =>
      if e.natAbs < 2 ^ (31 : Nat) then float? negative digits (shift + e)
      else if digits ≠ 0 ∧ 0 < e then none
      else float? negative 0 0
  match n? with
  | some n => .ok n
  | none => .error .malformed

theorem length_collect (digits added : Nat) (cs : List Char) :
    (collect digits added cs).2.2.length ≤ cs.length := by
  induction cs generalizing digits added with
  | nil => simp [collect]
  | cons c cs ih =>
    unfold collect
    split
    · exact Nat.le_succ_of_le (ih _ _)
    · exact Nat.le_refl _

theorem length_dropWhile (p : Char → Bool) (cs : List Char) :
    (cs.dropWhile p).length ≤ cs.length :=
  (List.dropWhile_sublist p).length_le

theorem length_wholePart {cs : List Char} {r : Nat × Nat × List Char} (h : wholePart cs = .ok r) :
    r.2.2.length < cs.length := by
  unfold wholePart at h
  split at h
  · cases h
  · split at h
    · cases h
    · cases h; exact Nat.lt_succ_self _
  · rename_i c cs _
    split at h
    · cases h
    · cases h
      exact Nat.lt_succ_of_le (Nat.le_trans (length_dropWhile _ _) (length_collect _ _ _))

theorem length_fractionPart {digits : Nat} {cs : List Char} {r : Nat × Nat × List Char}
    (h : fractionPart digits cs = .ok r) : r.2.2.length ≤ cs.length := by
  unfold fractionPart at h
  split at h
  · cases h
    exact Nat.le_trans (length_dropWhile _ _) (length_collect _ _ _)
  · cases h

theorem length_exponentPart {cs : List Char} {r : Int × List Char} (h : exponentPart cs = .ok r) :
    r.2.length ≤ cs.length := by
  simp only [exponentPart] at h
  split at h
  · cases h
  · cases h
    exact Nat.le_trans (List.drop_sublist _ _).length_le (Numeral.length_splitSign cs)

theorem length_exponentPart? {cs : List Char} {r : Option Int × List Char}
    (h : exponentPart? cs = .ok r) : r.2.length ≤ cs.length := by
  unfold exponentPart? at h
  split at h
  · rename_i cs
    cases he : exponentPart cs with
    | error e => simp [he, bind, Except.bind] at h
    | ok v =>
      simp only [he, bind, Except.bind, pure, Except.pure, Except.ok.injEq] at h
      subst h
      exact Nat.le_succ_of_le (length_exponentPart he)
  · rename_i cs
    cases he : exponentPart cs with
    | error e => simp [he, bind, Except.bind] at h
    | ok v =>
      simp only [he, bind, Except.bind, pure, Except.pure, Except.ok.injEq] at h
      subst h
      exact Nat.le_succ_of_le (length_exponentPart he)
  · cases h; exact Nat.le_refl _

/-- The number at the front of a text, behind its sign. -/
def unsigned (negative : Bool) (cs : List Char) : Except Fault (Text.Taken Number cs.length) :=
  match h : wholePart cs with
  | .error e => .error e
  | .ok (digits, dropped, '.' :: fraction) =>
    match h₁ : fractionPart digits fraction with
    | .error e => .error e
    | .ok (digits, added, rest) =>
      match h₂ : exponentPart? rest with
      | .error e => .error e
      | .ok (exponent, rest) => do
        let n ← numberOf negative digits ((dropped : Int) - added) exponent
        return ⟨n, rest, by
          have a := length_wholePart h
          have b := length_fractionPart h₁
          have c := length_exponentPart? h₂
          simp only [List.length_cons] at a b c
          omega⟩
  | .ok (digits, dropped, rest) =>
    match h₁ : exponentPart? rest with
    | .error e => .error e
    | .ok (exponent, rest) => do
      let n ←
        if exponent.isNone ∧ dropped = 0 then
          match integer? negative digits with
          | some n => pure n
          | none => throw .malformed
        else numberOf negative digits dropped exponent
      return ⟨n, rest, by
        have a := length_wholePart h
        have b := length_exponentPart? h₁
        simp only at a b
        omega⟩

/-- The number at the front of a text. -/
def numeral (cs : List Char) : Except Fault (Text.Taken Number cs.length) :=
  match cs with
  | '-' :: cs => do return (← unsigned true cs).behind
  | cs => unsigned false cs

end Criteria.Json
