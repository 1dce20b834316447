import Criteria.Expr.Error
import Criteria.Pattern.Delimiters
import Criteria.Text.Basic
import Criteria.Value.Compare

/-!
# Operators on values

The meaning of the operators once their operands are known. Integer arithmetic is
exact as long as the result fits in 64 bits and falls back to floating numbers where
it does not; nothing wraps. The operators that may leave their right operand out are
given their meaning on values here too.
-/

namespace Criteria

/-- Two values cannot be joined by an operator. -/
def mismatch {α : Type} (operator : String) (l r : Value) : Except ExprError α :=
  .error (.typeMismatch operator l.kind r.kind)

namespace UnaryOp

def apply (op : UnaryOp) (v : Value) : Except ExprError Value :=
  match op with
  | .not => .ok (.bool !v.truthy)
  | .negate | .plus =>
    match v.operand? with
    | none => .error (.typeMismatch op.symbol v.kind .number)
    | some n =>
      match op, n with
      | .negate, .int i _ => .ok (Numeric.ofInt (-i) (Binary64.ofInt i).neg).toValue
      | .negate, .float x => .ok (Numeric.float x.neg).toValue
      | _, n => .ok n.toValue

end UnaryOp

namespace Numeric

/-- Applies `exact` to two integers, falling back to floating numbers where the result
does not fit, and `approximate` to other numbers. -/
def lift (exact : Int → Int → Int) (approximate : Binary64 → Binary64 → Binary64) :
    Numeric → Numeric → Numeric
  | int m _, int n _ => ofInt (exact m n) (approximate (.ofInt m) (.ofInt n))
  | a, b => float (approximate a.toBinary64 b.toBinary64)

def add : Numeric → Numeric → Numeric := lift (· + ·) .add

def subtract : Numeric → Numeric → Numeric := lift (· - ·) .sub

def multiply : Numeric → Numeric → Numeric := lift (· * ·) .mul

/-- The quotient by a number that is not zero: an integer where it is one. -/
def divide : Numeric → Numeric → Numeric
  | int m hm, int n hn =>
    let quotient := (Binary64.ofInt m).div (.ofInt n)
    if m.tmod n = 0 then ofInt (m.tdiv n) quotient
    else float ((int m hm).toBinary64.div (int n hn).toBinary64)
  | a, b => float (a.toBinary64.div b.toBinary64)

/-- The integer power, for exponents of 32 bits. Only powers of 0, 1 and -1 fit with an
exponent of 64 or more. -/
def intPower? (m n : Int) : Option Int :=
  if 0 ≤ n ∧ n < 2 ^ (32 : Nat) ∧ (m.natAbs ≤ 1 ∨ n < 64) then
    let size : Int := (m.natAbs ^ n.toNat : Nat)
    let power := if m < 0 ∧ n % 2 = 1 then -size else size
    if Fits power then some power else none
  else none

def power (a b : Numeric) : Numeric :=
  let approximate := float (a.toBinary64.pow b.toBinary64)
  match a, b with
  | int m _, int n _ =>
    match intPower? m n with
    | some p => if h : Fits p then int p h else approximate
    | none => approximate
  | _, _ => approximate

/-- A bitwise operation on the integer parts of two numbers. -/
def bitwise (op : Int64 → Int64 → Int64) (a b : Numeric) : Int :=
  (op (.ofInt a.toInt) (.ofInt b.toInt)).toInt

end Numeric

/-- The integers from `a` to `b`, downwards if `b` is less. -/
def intsBetween (a b : Int) : List Int :=
  (List.range ((b - a).natAbs + 1)).map fun (k : Nat) => if a ≤ b then a + k else a - k

namespace BinaryOp

def compareAs (operator : String) (l r : Value) : Except ExprError Ordering :=
  match l.compare? r with
  | some o => .ok o
  | none => mismatch operator l r

/-- Whether a value is strictly equal to a member of a collection. -/
def isMember (operator : String) (l r : Value) : Except ExprError Bool :=
  match r with
  | .array items => .ok (items.any l.strictEq)
  | .object entries => .ok (entries.any fun e => l.strictEq e.2)
  | _ => mismatch operator l r

/-- Applies `f` to the texts of two scalars. -/
def onTexts {α : Type} (operator : String) (f : String → String → Except ExprError α)
    (l r : Value) : Except ExprError α :=
  match l.text?, r.text? with
  | some s, some t => f s t
  | _, _ => mismatch operator l r

/-- Applies `f` to two operands of arithmetic. -/
def onNumbers {α : Type} (operator : String) (f : Numeric → Numeric → Except ExprError α)
    (l r : Value) : Except ExprError α :=
  match l.operand?, r.operand? with
  | some a, some b => f a b
  | _, _ => mismatch operator l r

def rangeOf (l r : Value) : Except ExprError Value :=
  match l.numeric?, r.numeric? with
  | some (.int a _), some (.int b _) =>
    let size := (b - a).natAbs + 1
    if maxRangeSize < size then .error (.badArguments ".." (.rangeTooLarge size))
    else .ok (.array ((intsBetween a b).map .ofInt))
  | _, _ => mismatch ".." l r

/-- The value of two operands joined by an operator. -/
def apply (op : BinaryOp) (l r : Value) : Except ExprError Value :=
  let symbol := op.symbol
  match op with
  | .or => .ok (.bool (l.truthy || r.truthy))
  | .and => .ok (.bool (l.truthy && r.truthy))
  | .coalesce => .ok (if l.isNull then r else l)
  | .equal => .ok (.bool (l.looseEq r))
  | .notEqual => .ok (.bool !(l.looseEq r))
  | .identical => .ok (.bool (l.strictEq r))
  | .notIdentical => .ok (.bool !(l.strictEq r))
  | .less => return .bool ((← compareAs symbol l r) == .lt)
  | .greater => return .bool ((← compareAs symbol l r) == .gt)
  | .lessOrEqual => return .bool ((← compareAs symbol l r) != .gt)
  | .greaterOrEqual => return .bool ((← compareAs symbol l r) != .lt)
  | .member => return .bool (← isMember symbol l r)
  | .notMember => return .bool !(← isMember symbol l r)
  | .fitsPattern =>
    onTexts symbol (fun text pattern =>
      match Pattern.search? pattern text with
      | some found => .ok (.bool found)
      | none => .error (@ExprError.badPattern Pattern.refusal)) l r
  | .contains => onTexts symbol (fun s t => .ok (.bool (Text.contains s t))) l r
  | .startsWith => onTexts symbol (fun s t => .ok (.bool (Text.startsWith s t))) l r
  | .endsWith => onTexts symbol (fun s t => .ok (.bool (Text.endsWith s t))) l r
  | .concat => onTexts symbol (fun s t => .ok (.string (s ++ t))) l r
  | .range => rangeOf l r
  | .bitOr => onNumbers symbol (fun a b => .ok (.ofInt (a.bitwise (· ||| ·) b))) l r
  | .bitXor => onNumbers symbol (fun a b => .ok (.ofInt (a.bitwise (· ^^^ ·) b))) l r
  | .bitAnd => onNumbers symbol (fun a b => .ok (.ofInt (a.bitwise (· &&& ·) b))) l r
  | .add => onNumbers symbol (fun a b => .ok (a.add b).toValue) l r
  | .subtract => onNumbers symbol (fun a b => .ok (a.subtract b).toValue) l r
  | .multiply => onNumbers symbol (fun a b => .ok (a.multiply b).toValue) l r
  | .divide =>
    onNumbers symbol (fun a b =>
      if b.toBinary64.isZero then .error .divisionByZero else .ok (a.divide b).toValue) l r
  | .modulo =>
    onNumbers symbol (fun a b =>
      if b.toInt = 0 then .error .divisionByZero else .ok (.ofInt (a.toInt.tmod b.toInt))) l r
  | .power => onNumbers symbol (fun a b => .ok (a.power b).toValue) l r

end BinaryOp

end Criteria
