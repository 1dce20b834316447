import Criteria.Expr.Basic
import Criteria.Expr.Error
import Criteria.Expr.Token

/-!
# Reading expressions

The grammar, read from tokens by precedence. Every step takes at least one token off
the front of the list and says so in its type, which is why reading ends.

The nesting of the tree is bounded by the text: each expression, each operator that
makes no chain, each member access and each choice takes one level of the room that
is left, and the levels taken inside an expression are free again behind it.
-/

namespace Criteria.Expr

/-- Why the tokens are no expression. -/
inductive Refusal where
  | fault (fault : Fault) (position : Nat)
  | unknownFunction (name : String)
  deriving DecidableEq, Repr

/-- Something read from the front of a list of fewer than `bound` remaining tokens. -/
structure Reading (α : Type) (bound : Nat) where
  value : α
  rest : List Token
  shorter : rest.length < bound

/-- What the reading of tokens depends on: the functions that may be called, and the
place of the end. -/
structure Setting where
  known : String → Bool
  stop : Nat

namespace Setting

variable (g : Setting)

/-- The place of the next token or of the end. -/
def place : List Token → Nat
  | [] => g.stop
  | t :: _ => t.position

/-- The fault `f` at the next token. -/
def refuse {α : Type} (f : Fault) (ts : List Token) : Except Refusal α :=
  .error (.fault f (g.place ts))

/-- The tokens behind the punctuation `p`, which has to be next. -/
def expect (p : Punctuation) (requirement : Requirement) (ts : List Token) :
    Except Refusal (Reading Unit ts.length) :=
  match ts with
  | [] => g.refuse (.missing requirement none) []
  | t :: ts =>
    if t.lexeme = .punctuation p then .ok ⟨(), ts, Nat.lt_succ_self _⟩
    else g.refuse (.missing requirement (some t.lexeme)) (t :: ts)

/-- The key of a hash entry with its colon. -/
def key (ts : List Token) : Except Refusal (Reading String ts.length) :=
  match ts with
  | [] => g.refuse (.badKey none) []
  | t :: ts => do
    let key ← match t.lexeme with
      | .name s | .string s => pure s
      | .number (.int n _) => pure (intText n)
      | l => g.refuse (.badKey (some l)) (t :: ts)
    let colon ← g.expect .colon .keyColon ts
    return ⟨key, colon.rest, Nat.lt_succ_of_lt colon.shorter⟩

end Setting

/-- Whether the next token is the punctuation `p`. -/
def nextIs (p : Punctuation) : List Token → Bool
  | [] => false
  | t :: _ => t.lexeme == .punctuation p

/-- The constants that are written as words, in any letter case. -/
def constantWord? (s : String) : Option Value :=
  match Text.toAsciiLower s with
  | "true" => some (.bool true)
  | "false" => some (.bool false)
  | "null" => some .null
  | _ => none

section

/-! Each reading takes a token at least, except for the last one of a list, which may find
nothing. -/

variable {ts rest rest₁ rest₂ rest₃ : List Token}

theorem length_drop_one_lt (ts : List Token) : (ts.drop 1).length < ts.length + 1 :=
  Nat.lt_succ_of_le (List.drop_sublist 1 ts).length_le

theorem length_lt_after_one (h : rest.length < ts.length)
    (h₁ : rest₁.length < rest.length + 1) : rest₁.length < ts.length + 1 := by
  omega

theorem length_drop_one_lt_after (h : rest.length < ts.length) :
    (rest.drop 1).length < ts.length + 1 :=
  length_lt_after_one h (length_drop_one_lt rest)

theorem length_lt_after_two (h : rest.length < ts.length) (h₁ : rest₁.length < rest.length)
    (h₂ : rest₂.length < rest₁.length + 1) : rest₂.length < ts.length + 1 := by
  omega

theorem length_lt_after_three (h : rest.length < ts.length)
    (h₁ : rest₁.length < rest.length) (h₂ : rest₂.length < rest₁.length)
    (h₃ : rest₃.length < rest₂.length + 1) : rest₃.length < ts.length + 1 := by
  omega

end

mutual

/-- An expression whose operators bind at least as tightly as `precedence`. -/
def expression (g : Setting) (room precedence : Nat) (ts : List Token) :
    Except Refusal (Reading Expr ts.length) :=
  match room with
  | 0 => g.refuse .tooDeep ts
  | room + 1 => do
    let ⟨(first, room), rest, h⟩ ← primary g room ts
    let ⟨(e, room), rest, h₁⟩ ← operators g room precedence first rest
    if precedence = 0 then
      let ⟨e, rest, h₂⟩ ← choices g room e rest
      return ⟨e, rest, by omega⟩
    else return ⟨e, rest, by omega⟩
termination_by 4 * ts.length + 2

/-- An operand: a prefix operator with its operand, a group, or an atom, each with the
member accesses behind it. The room left over is returned too. -/
def primary (g : Setting) (room : Nat) (ts : List Token) :
    Except Refusal (Reading (Expr × Nat) ts.length) :=
  match ts with
  | [] => g.refuse (.unexpected none) []
  | ⟨lexeme, position⟩ :: ts =>
    match lexeme with
    | .operator s =>
      match UnaryOp.ofSpelling? s with
      | none => .error (.fault (.unexpected (some (.operator s))) position)
      | some op => do
        let ⟨e, rest, h⟩ ← expression g room op.precedence ts
        let ⟨r, rest, h₁⟩ ← accesses g room (.unary op e) rest
        return ⟨r, rest, by simp only [List.length_cons]; omega⟩
    | .punctuation .openParen => do
      let ⟨e, rest, h⟩ ← expression g room 0 ts
      let ⟨_, rest, h₁⟩ ← g.expect .closeParen .closingParen rest
      let ⟨r, rest, h₂⟩ ← accesses g room e rest
      return ⟨r, rest, by simp only [List.length_cons]; omega⟩
    | .punctuation .openBracket => do
      let ⟨es, rest, h⟩ ← elements g room .closeBracket .arrayComma true true ts
      let ⟨r, rest, h₁⟩ ← accesses g room (.array es) rest
      return ⟨r, rest, by simp only [List.length_cons]; omega⟩
    | .punctuation .openBrace => do
      let ⟨es, rest, h⟩ ← entries g room true ts
      let ⟨r, rest, h₁⟩ ← accesses g room (.hash es) rest
      return ⟨r, rest, by simp only [List.length_cons]; omega⟩
    | .punctuation p => .error (.fault (.unexpected (some (.punctuation p))) position)
    | .number n => do
      let ⟨r, rest, h⟩ ← accesses g room (.const n.toValue) ts
      return ⟨r, rest, by simpa using h⟩
    | .string s => do
      let ⟨r, rest, h⟩ ← accesses g room (.const (.string s)) ts
      return ⟨r, rest, by simpa using h⟩
    | .name s =>
      match constantWord? s with
      | some v => do
        let ⟨r, rest, h⟩ ← accesses g room (.const v) ts
        return ⟨r, rest, by simpa using h⟩
      | none =>
        if nextIs .openParen ts then
          if g.known s then do
            have := (ts.drop_sublist 1).length_le
            let ⟨es, rest, h⟩ ← elements g room .closeParen .argumentComma false true (ts.drop 1)
            let ⟨r, rest, h₁⟩ ← accesses g room (.call s es) rest
            return ⟨r, rest, by simp only [List.length_cons]; omega⟩
          else .error (.unknownFunction s)
        else do
          let ⟨r, rest, h⟩ ← accesses g room (.name s) ts
          return ⟨r, rest, by simpa using h⟩
termination_by 4 * ts.length + 1

/-- The member accesses behind `e`. -/
def accesses (g : Setting) (room : Nat) (e : Expr) (ts : List Token) :
    Except Refusal (Reading (Expr × Nat) (ts.length + 1)) :=
  match ts with
  | ⟨.punctuation .dot, position⟩ :: rest =>
    match room with
    | 0 => .error (.fault .tooDeep position)
    | room + 1 =>
      match rest with
      | ⟨.name member, _⟩ :: rest =>
        if nextIs .openParen rest then g.refuse (.methodCall member) rest
        else do
          let ⟨r, rest, h⟩ ←
            accesses g room (.access e (.const (.string member)) .property) rest
          return ⟨r, rest, by simp only [List.length_cons]; omega⟩
      | rest => g.refuse .missingMember rest
  | ⟨.punctuation .openBracket, position⟩ :: rest =>
    match room with
    | 0 => .error (.fault .tooDeep position)
    | room + 1 => do
      let ⟨key, rest, h⟩ ← expression g room 0 rest
      let ⟨_, rest, h₁⟩ ← g.expect .closeBracket .closingIndex rest
      let ⟨r, rest, h₂⟩ ← accesses g room (.access e key .index) rest
      return ⟨r, rest, by simp only [List.length_cons]; omega⟩
  | ts => .ok ⟨(e, room), ts, Nat.lt_succ_self _⟩
termination_by 4 * ts.length

/-- The operators behind `e` that bind at least as tightly as `precedence`, each with its
right operand. -/
def operators (g : Setting) (room precedence : Nat) (e : Expr) (ts : List Token) :
    Except Refusal (Reading (Expr × Nat) (ts.length + 1)) :=
  match ts with
  | ⟨.operator s, position⟩ :: rest =>
    match (BinaryOp.ofSpelling? s).filter (precedence ≤ ·.precedence) with
    | none => .ok ⟨(e, room), ⟨.operator s, position⟩ :: rest, Nat.lt_succ_self _⟩
    | some op =>
      if op.isLogical = false ∧ room = 0 then .error (.fault .tooDeep position)
      else do
        let room := if op.isLogical then room else room - 1
        let ⟨right, rest, h⟩ ← expression g room op.rightPrecedence rest
        let ⟨r, rest, h₁⟩ ← operators g room precedence (join op e right) rest
        return ⟨r, rest, by simp only [List.length_cons]; omega⟩
  | ts => .ok ⟨(e, room), ts, Nat.lt_succ_self _⟩
termination_by 4 * ts.length

/-- The choices that `e` is the condition of. Without a first alternative the condition
itself takes its place, without a second one null does. -/
def choices (g : Setting) (room : Nat) (e : Expr) (ts : List Token) :
    Except Refusal (Reading Expr (ts.length + 1)) :=
  match ts with
  | ⟨.punctuation .question, position⟩ :: rest =>
    match room with
    | 0 => .error (.fault .tooDeep position)
    | room + 1 =>
      match rest with
      | ⟨.punctuation .colon, _⟩ :: rest => do
        let ⟨no, rest, h⟩ ← expression g room 0 rest
        let ⟨r, rest, h₁⟩ ← choices g room (.conditional e e no) rest
        return ⟨r, rest, by simp only [List.length_cons]; omega⟩
      | rest => do
        let ⟨yes, rest, h⟩ ← expression g room 0 rest
        if nextIs .colon rest then
          have := (rest.drop_sublist 1).length_le
          let ⟨no, rest, h₁⟩ ← expression g room 0 (rest.drop 1)
          let ⟨r, rest, h₂⟩ ← choices g room (.conditional e yes no) rest
          return ⟨r, rest, by simp only [List.length_cons]; omega⟩
        else
          let ⟨r, rest, h₁⟩ ← choices g room (.conditional e yes (.const .null)) rest
          return ⟨r, rest, by simp only [List.length_cons]; omega⟩
  | ts => .ok ⟨e, ts, Nat.lt_succ_self _⟩
termination_by 4 * ts.length

/-- The expressions up to the punctuation `close`. A comma stands before each but the
first, and one may stand before `close` where `trailing` says so. -/
def elements (g : Setting) (room : Nat) (close : Punctuation) (comma : Requirement)
    (trailing first : Bool) (ts : List Token) :
    Except Refusal (Reading (List Expr) (ts.length + 1)) :=
  if nextIs close ts then .ok ⟨[], ts.drop 1, length_drop_one_lt ts⟩
  else if first then do
    let ⟨e, rest, h⟩ ← expression g room 0 ts
    let ⟨es, rest, h₁⟩ ← elements g room close comma trailing false rest
    return ⟨e :: es, rest, length_lt_after_one h h₁⟩
  else do
    let ⟨_, rest, h⟩ ← g.expect .comma comma ts
    if trailing && nextIs close rest then return ⟨[], rest.drop 1, length_drop_one_lt_after h⟩
    else
      let ⟨e, rest, h₁⟩ ← expression g room 0 rest
      let ⟨es, rest, h₂⟩ ← elements g room close comma trailing false rest
      return ⟨e :: es, rest, length_lt_after_two h h₁ h₂⟩
termination_by 4 * ts.length + 3

/-- The entries of a hash up to its closing brace, with commas as in an array. -/
def entries (g : Setting) (room : Nat) (first : Bool) (ts : List Token) :
    Except Refusal (Reading (List (String × Expr)) (ts.length + 1)) :=
  if nextIs .closeBrace ts then .ok ⟨[], ts.drop 1, length_drop_one_lt ts⟩
  else if first then do
    let ⟨key, rest, h⟩ ← g.key ts
    let ⟨e, rest, h₁⟩ ← expression g room 0 rest
    let ⟨es, rest, h₂⟩ ← entries g room false rest
    return ⟨(key, e) :: es, rest, length_lt_after_two h h₁ h₂⟩
  else do
    let ⟨_, rest, h⟩ ← g.expect .comma .hashComma ts
    if nextIs .closeBrace rest then return ⟨[], rest.drop 1, length_drop_one_lt_after h⟩
    else
      let ⟨key, rest, h₁⟩ ← g.key rest
      let ⟨e, rest, h₂⟩ ← expression g room 0 rest
      let ⟨es, rest, h₃⟩ ← entries g room false rest
      return ⟨(key, e) :: es, rest, length_lt_after_three h h₁ h₂ h₃⟩
termination_by 4 * ts.length + 3

end

/-- The expression that all the tokens are. -/
def ofTokens (known : String → Bool) (text : TokenList) : Except Refusal Expr := do
  let g : Setting := ⟨known, text.stop⟩
  let r ← expression g maxNesting 0 text.tokens
  match r.rest with
  | [] => return r.value
  | t :: ts => g.refuse (.unexpected (some t.lexeme)) (t :: ts)

/-- The tokens of a text. -/
def tokens (source : String) : Except ExprError TokenList :=
  match Token.ofText source with
  | .error (obstacle, position) => .error (.fault (.lexical obstacle) position source)
  | .ok text => .ok text

/-- The expression that a text is. -/
def ofText (known : String → Bool) (source : String) : Except ExprError Expr :=
  match tokens source with
  | .error e => .error e
  | .ok text =>
    match ofTokens known text with
    | .error (.fault f position) => .error (.fault f position source)
    | .error (.unknownFunction function) => .error (.undefinedFunction function)
    | .ok e => .ok e

end Criteria.Expr
