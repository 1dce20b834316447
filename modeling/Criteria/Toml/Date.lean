import Criteria.Text.Basic

/-!
# Dates and times

A date, a time, or both with perhaps an offset from universal time. They are kept as
text in one form: a capital letter between date and time and for universal time, and no
zeros at the end of a fraction of a second.
-/

namespace Criteria.Toml

/-- The number written by two digits. -/
def twoDigits? (a b : Char) : Option Nat :=
  if Text.isAsciiDigit a && Text.isAsciiDigit b then some (Text.digitsValue [a, b]) else none

def isLeapYear (year : Nat) : Bool :=
  year % 4 == 0 && (year % 100 != 0 || year % 400 == 0)

def daysInMonth (year month : Nat) : Nat :=
  if month = 2 then if isLeapYear year then 29 else 28
  else if month = 4 ∨ month = 6 ∨ month = 9 ∨ month = 11 then 30
  else 31

/-- Whether a text is the date of a day that there is. -/
def isDate : List Char → Bool
  | [a, b, c, d, '-', e, f, '-', g, h] =>
    match twoDigits? a b, twoDigits? c d, twoDigits? e f, twoDigits? g h with
    | some century, some year, some month, some day =>
      1 ≤ month && month ≤ 12 && 1 ≤ day && day ≤ daysInMonth (100 * century + year) month
    | _, _, _, _ => false
  | _ => false

/-- The fraction of a second in its form: nine digits count, zeros at the end do not. -/
def fraction? : List Char → Option (List Char)
  | [] => some []
  | '.' :: digits =>
    if !digits.isEmpty && digits.all Text.isAsciiDigit then
      let kept := ((digits.take 9).reverse.dropWhile (· == '0')).reverse
      some (if kept.isEmpty then [] else '.' :: kept)
    else none
  | _ => none

/-- A time of the day in its form. A minute may have a leap second. -/
def time? : List Char → Option (List Char)
  | a :: b :: ':' :: c :: d :: ':' :: e :: f :: rest => do
    let hour ← twoDigits? a b
    let minute ← twoDigits? c d
    let second ← twoDigits? e f
    let fraction ← fraction? rest
    if hour < 24 ∧ minute < 60 ∧ second ≤ 60 then
      return [a, b, ':', c, d, ':', e, f] ++ fraction
    else none
  | _ => none

/-- An offset in its form; none has a minus sign that is zero. -/
def offset? : List Char → Option (List Char)
  | [] => some []
  | ['Z'] | ['z'] => some ['Z']
  | [s, a, b, ':', c, d] => do
    let hours ← twoDigits? a b
    let minutes ← twoDigits? c d
    if (s = '+' ∨ s = '-') ∧ hours < 24 ∧ minutes < 60 then
      return [if hours = 0 ∧ minutes = 0 then '+' else s, a, b, ':', c, d]
    else none
  | _ => none

/-- The characters of a time of the day. -/
def isTimeChar (c : Char) : Bool :=
  Text.isAsciiDigit c || c == ':' || c == '.'

/-- A date, a time or both, in its form. -/
def dateTime? (cs : List Char) : Option (List Char) :=
  if isDate (cs.take 10) then
    match cs.drop 10 with
    | [] => some cs
    | c :: rest => do
      let time ← time? (rest.takeWhile isTimeChar)
      let offset ← offset? (rest.dropWhile isTimeChar)
      if c = 'T' ∨ c = 't' ∨ c = ' ' then return cs.take 10 ++ 'T' :: (time ++ offset) else none
  else time? cs

end Criteria.Toml
