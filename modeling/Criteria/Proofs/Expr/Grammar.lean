import Criteria.Expr.Reading

/-!
# The grammar of expressions

The grammar on lexemes alone, apart from places, room and messages. A derivation says
that a phrase stands at the front of some lexemes, which expression it is and what is
left behind it. It also counts: `used` are the levels of nesting that stay taken behind
the phrase, `need` is the least room in which it can be read. The limit on nesting is no
part of the grammar; it only says which derivations find enough room.

The lists inside brackets are given as the array or the hash that has them.
-/

namespace Criteria.Expr

/-- The phrases that the reader has a function for. -/
inductive Phrase where
  | expression (precedence : Nat)
  | primary
  | accesses (e : Expr)
  | operators (precedence : Nat) (e : Expr)
  | choices (e : Expr)
  | elements (close : Punctuation) (comma : Requirement) (trailing first : Bool)
  | entries (first : Bool)

/-- The constant that a lexeme is, if it is one. -/
def constant? : Lexeme → Option Value
  | .number n => some n.toValue
  | .string s => some (.string s)
  | .name s => constantWord? s
  | _ => none

/-- The key of a hash entry that a lexeme is, if it can be one. -/
def key? : Lexeme → Option String
  | .name s | .string s => some s
  | .number (.int n _) => some (intText n)
  | _ => none

/-- The levels that an operator takes: none for those that make chains. -/
def level (op : BinaryOp) : Nat := if op.isLogical then 0 else 1

/-- Whether the punctuation `p` comes first. -/
def StartsWith (p : Punctuation) (ls : List Lexeme) : Prop := ls.head? = some (.punctuation p)

/-- Whether an operator that binds at least as tightly as `precedence` comes first. -/
def StartsWithOperator (precedence : Nat) (ls : List Lexeme) : Prop :=
  ∃ s op, ls.head? = some (.operator s) ∧ BinaryOp.ofSpelling? s = some op ∧
    precedence ≤ op.precedence

/-- `Derives known phrase ls e rest used need`: the lexemes `ls` are `phrase`, which is `e`,
and `rest`. -/
inductive Derives (known : String → Bool) :
    Phrase → List Lexeme → Expr → List Lexeme → Nat → Nat → Prop
  | full {ls ls₁ ls₂ ls₃ : List Lexeme} {f e v : Expr} {u₁ u₂ n₁ n₂ n₃ : Nat} :
      Derives known .primary ls f ls₁ u₁ n₁ →
      Derives known (.operators 0 f) ls₁ e ls₂ u₂ n₂ →
      Derives known (.choices e) ls₂ v ls₃ 0 n₃ →
      Derives known (.expression 0) ls v ls₃ 0 (1 + max n₁ (max (u₁ + n₂) (u₁ + u₂ + n₃)))
  | operand {p : Nat} {ls ls₁ ls₂ : List Lexeme} {f v : Expr} {u₁ u₂ n₁ n₂ : Nat} : p ≠ 0 →
      Derives known .primary ls f ls₁ u₁ n₁ →
      Derives known (.operators p f) ls₁ v ls₂ u₂ n₂ →
      Derives known (.expression p) ls v ls₂ 0 (1 + max n₁ (u₁ + n₂))
  | unary {s : Spelling} {op : UnaryOp} {ls ls₁ ls₂ : List Lexeme} {e v : Expr} {u n n' : Nat} :
      UnaryOp.ofSpelling? s = some op →
      Derives known (.expression op.precedence) ls e ls₁ 0 n →
      Derives known (.accesses (.unary op e)) ls₁ v ls₂ u n' →
      Derives known .primary (.operator s :: ls) v ls₂ u (max n n')
  | group {ls ls₁ ls₂ : List Lexeme} {e v : Expr} {u n n' : Nat} :
      Derives known (.expression 0) ls e (.punctuation .closeParen :: ls₁) 0 n →
      Derives known (.accesses e) ls₁ v ls₂ u n' →
      Derives known .primary (.punctuation .openParen :: ls) v ls₂ u (max n n')
  | array {ls ls₁ ls₂ : List Lexeme} {es : List Expr} {v : Expr} {u n n' : Nat} :
      Derives known (.elements .closeBracket .arrayComma true true) ls (.array es) ls₁ 0 n →
      Derives known (.accesses (.array es)) ls₁ v ls₂ u n' →
      Derives known .primary (.punctuation .openBracket :: ls) v ls₂ u (max n n')
  | hash {ls ls₁ ls₂ : List Lexeme} {es : List (String × Expr)} {v : Expr} {u n n' : Nat} :
      Derives known (.entries true) ls (.hash es) ls₁ 0 n →
      Derives known (.accesses (.hash es)) ls₁ v ls₂ u n' →
      Derives known .primary (.punctuation .openBrace :: ls) v ls₂ u (max n n')
  | constant {l : Lexeme} {c : Value} {ls ls₁ : List Lexeme} {v : Expr} {u n : Nat} :
      constant? l = some c →
      Derives known (.accesses (.const c)) ls v ls₁ u n →
      Derives known .primary (l :: ls) v ls₁ u n
  | call {s : String} {ls ls₁ ls₂ : List Lexeme} {es : List Expr} {v : Expr} {u n n' : Nat} :
      constantWord? s = none → known s = true →
      Derives known (.elements .closeParen .argumentComma false true) ls (.array es) ls₁ 0 n →
      Derives known (.accesses (.call s es)) ls₁ v ls₂ u n' →
      Derives known .primary (.name s :: .punctuation .openParen :: ls) v ls₂ u (max n n')
  | name {s : String} {ls ls₁ : List Lexeme} {v : Expr} {u n : Nat} :
      constantWord? s = none → ¬ StartsWith .openParen ls →
      Derives known (.accesses (.name s)) ls v ls₁ u n →
      Derives known .primary (.name s :: ls) v ls₁ u n
  | noAccess {e : Expr} {ls : List Lexeme} : ¬ StartsWith .dot ls → ¬ StartsWith .openBracket ls →
      Derives known (.accesses e) ls e ls 0 0
  | property {e v : Expr} {member : String} {ls ls₁ : List Lexeme} {u n : Nat} :
      ¬ StartsWith .openParen ls →
      Derives known (.accesses (.access e (.const (.string member)) .property)) ls v ls₁ u n →
      Derives known (.accesses e) (.punctuation .dot :: .name member :: ls) v ls₁ (1 + u) (1 + n)
  | index {e key v : Expr} {ls ls₁ ls₂ : List Lexeme} {u n n' : Nat} :
      Derives known (.expression 0) ls key (.punctuation .closeBracket :: ls₁) 0 n →
      Derives known (.accesses (.access e key .index)) ls₁ v ls₂ u n' →
      Derives known (.accesses e) (.punctuation .openBracket :: ls) v ls₂ (1 + u) (1 + max n n')
  | noOperator {p : Nat} {e : Expr} {ls : List Lexeme} : ¬ StartsWithOperator p ls →
      Derives known (.operators p e) ls e ls 0 0
  | operator {p : Nat} {s : Spelling} {op : BinaryOp} {e right v : Expr}
      {ls ls₁ ls₂ : List Lexeme} {u n n' : Nat} :
      BinaryOp.ofSpelling? s = some op → p ≤ op.precedence →
      Derives known (.expression op.rightPrecedence) ls right ls₁ 0 n →
      Derives known (.operators p (join op e right)) ls₁ v ls₂ u n' →
      Derives known (.operators p e) (.operator s :: ls) v ls₂ (level op + u) (level op + max n n')
  | noChoice {e : Expr} {ls : List Lexeme} : ¬ StartsWith .question ls →
      Derives known (.choices e) ls e ls 0 0
  | shortChoice {e no v : Expr} {ls ls₁ ls₂ : List Lexeme} {n n' : Nat} :
      Derives known (.expression 0) ls no ls₁ 0 n →
      Derives known (.choices (.conditional e e no)) ls₁ v ls₂ 0 n' →
      Derives known (.choices e) (.punctuation .question :: .punctuation .colon :: ls) v ls₂ 0
        (1 + max n n')
  | choice {e yes no v : Expr} {ls ls₁ ls₂ ls₃ : List Lexeme} {n₁ n₂ n₃ : Nat} :
      ¬ StartsWith .colon ls →
      Derives known (.expression 0) ls yes (.punctuation .colon :: ls₁) 0 n₁ →
      Derives known (.expression 0) ls₁ no ls₂ 0 n₂ →
      Derives known (.choices (.conditional e yes no)) ls₂ v ls₃ 0 n₃ →
      Derives known (.choices e) (.punctuation .question :: ls) v ls₃ 0 (1 + max n₁ (max n₂ n₃))
  | openChoice {e yes v : Expr} {ls ls₁ ls₂ : List Lexeme} {n n' : Nat} :
      ¬ StartsWith .colon ls →
      Derives known (.expression 0) ls yes ls₁ 0 n → ¬ StartsWith .colon ls₁ →
      Derives known (.choices (.conditional e yes (.const .null))) ls₁ v ls₂ 0 n' →
      Derives known (.choices e) (.punctuation .question :: ls) v ls₂ 0 (1 + max n n')
  | noElements {close : Punctuation} {comma : Requirement} {trailing first : Bool}
      {ls : List Lexeme} :
      Derives known (.elements close comma trailing first) (.punctuation close :: ls) (.array []) ls
        0 0
  | firstElement {close : Punctuation} {comma : Requirement} {trailing : Bool} {e : Expr}
      {es : List Expr} {ls ls₁ ls₂ : List Lexeme} {n n' : Nat} :
      ¬ StartsWith close ls →
      Derives known (.expression 0) ls e ls₁ 0 n →
      Derives known (.elements close comma trailing false) ls₁ (.array es) ls₂ 0 n' →
      Derives known (.elements close comma trailing true) ls (.array (e :: es)) ls₂ 0 (max n n')
  | lastComma {close : Punctuation} {comma : Requirement} {ls : List Lexeme} : close ≠ .comma →
      Derives known (.elements close comma true false)
        (.punctuation .comma :: .punctuation close :: ls) (.array []) ls 0 0
  | element {close : Punctuation} {comma : Requirement} {trailing : Bool} {e : Expr}
      {es : List Expr} {ls ls₁ ls₂ : List Lexeme} {n n' : Nat} : close ≠ .comma →
      ¬ (trailing = true ∧ StartsWith close ls) →
      Derives known (.expression 0) ls e ls₁ 0 n →
      Derives known (.elements close comma trailing false) ls₁ (.array es) ls₂ 0 n' →
      Derives known (.elements close comma trailing false) (.punctuation .comma :: ls)
        (.array (e :: es)) ls₂ 0 (max n n')
  | noEntries {first : Bool} {ls : List Lexeme} :
      Derives known (.entries first) (.punctuation .closeBrace :: ls) (.hash []) ls 0 0
  | firstEntry {l : Lexeme} {k : String} {e : Expr} {es : List (String × Expr)}
      {ls ls₁ ls₂ : List Lexeme} {n n' : Nat} : key? l = some k →
      Derives known (.expression 0) ls e ls₁ 0 n →
      Derives known (.entries false) ls₁ (.hash es) ls₂ 0 n' →
      Derives known (.entries true) (l :: .punctuation .colon :: ls) (.hash ((k, e) :: es)) ls₂ 0
        (max n n')
  | lastEntryComma {ls : List Lexeme} :
      Derives known (.entries false) (.punctuation .comma :: .punctuation .closeBrace :: ls)
        (.hash []) ls 0 0
  | entry {l : Lexeme} {k : String} {e : Expr} {es : List (String × Expr)}
      {ls ls₁ ls₂ : List Lexeme} {n n' : Nat} : key? l = some k →
      Derives known (.expression 0) ls e ls₁ 0 n →
      Derives known (.entries false) ls₁ (.hash es) ls₂ 0 n' →
      Derives known (.entries false) (.punctuation .comma :: l :: .punctuation .colon :: ls)
        (.hash ((k, e) :: es)) ls₂ 0 (max n n')

/-- The levels that stay taken are among those needed. -/
theorem Derives.used_le {known : String → Bool} {phrase : Phrase} {ls rest : List Lexeme}
    {e : Expr} {used need : Nat} (h : Derives known phrase ls e rest used need) : used ≤ need := by
  induction h <;> omega

/-- Where more functions are known, what was derived before still is. -/
theorem Derives.mono {known known' : String → Bool} (hk : ∀ s, known s = true → known' s = true)
    {phrase : Phrase} {ls rest : List Lexeme} {e : Expr} {used need : Nat}
    (h : Derives known phrase ls e rest used need) : Derives known' phrase ls e rest used need := by
  induction h with
  | full _ _ _ ih₁ ih₂ ih₃ => exact .full ih₁ ih₂ ih₃
  | operand hp _ _ ih₁ ih₂ => exact .operand hp ih₁ ih₂
  | unary hs _ _ ih₁ ih₂ => exact .unary hs ih₁ ih₂
  | group _ _ ih₁ ih₂ => exact .group ih₁ ih₂
  | array _ _ ih₁ ih₂ => exact .array ih₁ ih₂
  | hash _ _ ih₁ ih₂ => exact .hash ih₁ ih₂
  | constant hc _ ih => exact .constant hc ih
  | call hc hs _ _ ih₁ ih₂ => exact .call hc (hk _ hs) ih₁ ih₂
  | name hc hn _ ih => exact .name hc hn ih
  | noAccess hd hb => exact .noAccess hd hb
  | property hn _ ih => exact .property hn ih
  | index _ _ ih₁ ih₂ => exact .index ih₁ ih₂
  | noOperator hn => exact .noOperator hn
  | operator hs hp _ _ ih₁ ih₂ => exact .operator hs hp ih₁ ih₂
  | noChoice hn => exact .noChoice hn
  | shortChoice _ _ ih₁ ih₂ => exact .shortChoice ih₁ ih₂
  | choice hc _ _ _ ih₁ ih₂ ih₃ => exact .choice hc ih₁ ih₂ ih₃
  | openChoice hc _ hn _ ih₁ ih₂ => exact .openChoice hc ih₁ hn ih₂
  | noElements => exact .noElements
  | firstElement hn _ _ ih₁ ih₂ => exact .firstElement hn ih₁ ih₂
  | lastComma hc => exact .lastComma hc
  | element hc ht _ _ ih₁ ih₂ => exact .element hc ht ih₁ ih₂
  | noEntries => exact .noEntries
  | firstEntry hl _ _ ih₁ ih₂ => exact .firstEntry hl ih₁ ih₂
  | lastEntryComma => exact .lastEntryComma
  | entry hl _ _ ih₁ ih₂ => exact .entry hl ih₁ ih₂

end Criteria.Expr
