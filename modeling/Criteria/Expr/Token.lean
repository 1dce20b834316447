import Criteria.Expr.Lexeme

/-!
# Tokens

A token is a lexeme with its place, counted in bytes of the UTF-8 text. The tokens of
a text are its lexemes in order; blanks may stand between any two and are not kept.
The place behind the last character takes the part of an end mark.
-/

namespace Criteria

structure Token where
  lexeme : Lexeme
  position : Nat
  deriving DecidableEq, Repr

/-- The tokens of a text, and the place at which the text ends. -/
structure TokenList where
  tokens : List Token
  stop : Nat
  deriving DecidableEq, Repr

namespace Token

/-- The bytes of a text in UTF-8. -/
def byteLength (cs : List Char) : Nat :=
  cs.foldr (fun c n => c.utf8Size + n) 0

/-- The tokens of a text that starts at place `position`, or the place where no lexeme
stands. -/
def scan (position : Nat) (cs : List Char) : Except (Lexeme.Obstacle × Nat) TokenList :=
  match cs with
  | [] => .ok ⟨[], position⟩
  | c :: cs =>
    if Text.isBlank c then scan (position + c.utf8Size) cs
    else
      match Lexeme.read c cs with
      | .error obstacle => .error (obstacle, position)
      | .ok (lexeme, n) =>
        match scan (position + byteLength (c :: cs.take n)) (cs.drop n) with
        | .error e => .error e
        | .ok rest => .ok { rest with tokens := ⟨lexeme, position⟩ :: rest.tokens }
termination_by cs.length

/-- The tokens of a whole text. -/
def ofText (source : String) : Except (Lexeme.Obstacle × Nat) TokenList :=
  scan 0 source.toList

end Token

end Criteria
