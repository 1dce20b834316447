import Criteria.Proofs.Expr.Regular

/-!
# Expressions side by side

Where an expression ends depends on what stands behind it. Expressions that stand side by
side, with commas or with one logical operator between them, are read one by one, and the
levels that are needed for all of them are bounded as they are for each.
-/

namespace Criteria.Expr

/-! ## What follows an operand -/

/-- The lexemes behind an expression whose operators bind at least as tightly as `p` do
not go on with it. -/
structure Stops (p : Nat) (rest : List Lexeme) : Prop where
  noCall : ¬ StartsWith .openParen rest
  noMember : ¬ StartsWith .dot rest
  noIndex : ¬ StartsWith .openBracket rest
  noOperator : ¬ StartsWithOperator p rest
  noChoice : p = 0 → ¬ StartsWith .question rest

/-- What ends operators of the precedence `p` ends tighter ones too. -/
theorem Stops.mono {p q : Nat} (hpq : p ≤ q) {rest : List Lexeme} (h : Stops p rest) :
    Stops q rest := by
  refine ⟨h.noCall, h.noMember, h.noIndex, ?_, fun hq => h.noChoice (by omega)⟩
  rintro ⟨s, op, hhead, hop, hle⟩
  exact h.noOperator ⟨s, op, hhead, hop, by omega⟩

theorem Stops.noAccess {known : String → Bool} {p : Nat} {rest : List Lexeme} (h : Stops p rest)
    (e : Expr) : Derives known (.accesses e) rest e rest 0 0 :=
  .noAccess h.noMember h.noIndex

theorem not_startsWith_operator {p : Punctuation} {s : Spelling} {rest : List Lexeme} :
    ¬ StartsWith p (.operator s :: rest) := by
  simp [StartsWith]

theorem not_startsWith_punctuation {p q : Punctuation} (h : p ≠ q) {rest : List Lexeme} :
    ¬ StartsWith p (.punctuation q :: rest) := by
  simpa [StartsWith] using h.symm

theorem not_startsWithOperator_punctuation {p : Nat} {q : Punctuation} {rest : List Lexeme} :
    ¬ StartsWithOperator p (.punctuation q :: rest) := by
  rintro ⟨s, op, h, -⟩
  cases h

/-- The marks that end expressions. -/
def Punctuation.ends : Punctuation → Bool
  | .closeParen | .closeBracket | .closeBrace | .comma | .colon => true
  | _ => false

theorem stops_nil (p : Nat) : Stops p [] := by
  constructor <;> simp [StartsWith, StartsWithOperator]

theorem stops_punctuation (p : Nat) {q : Punctuation} (hq : Punctuation.ends q = true)
    (rest : List Lexeme) : Stops p (.punctuation q :: rest) := by
  refine ⟨?_, ?_, ?_, not_startsWithOperator_punctuation, fun _ => ?_⟩ <;>
  · apply not_startsWith_punctuation
    rintro rfl
    cases hq

theorem stops_operator {p : Nat} {op : BinaryOp} (hp : op.precedence < p) (rest : List Lexeme) :
    Stops p (.operator op.spelling :: rest) := by
  refine ⟨not_startsWith_operator, not_startsWith_operator, not_startsWith_operator, ?_,
    fun _ => not_startsWith_operator⟩
  rintro ⟨s, op', h, hs, hp'⟩
  cases h
  rw [BinaryOp.ofSpelling?_spelling] at hs
  cases hs
  omega

/-- An operand that nothing goes on with is an expression. -/
theorem Derives.expression {known : String → Bool} {p : Nat} {ls rest : List Lexeme} {e : Expr}
    {u n : Nat} (d : Derives known .primary ls e rest u n) (hrest : Stops p rest) :
    Derives known (.expression p) ls e rest 0 (1 + n) := by
  have hu := d.used_le
  by_cases hp : p = 0
  · subst hp
    have dall := Derives.full d (.noOperator hrest.noOperator) (.noChoice (hrest.noChoice rfl))
    rwa [Nat.add_zero, Nat.max_self, Nat.max_eq_left hu] at dall
  · have dall := Derives.operand hp d (.noOperator hrest.noOperator)
    rwa [Nat.add_zero, Nat.max_eq_left hu] at dall

/-! ## Lexemes in print -/

/-- The text `cs` has the lexemes `ls` before everything that may follow an operand. -/
def Legible (cs : List Char) (ls : List Lexeme) : Prop :=
  ∀ ⦃r : List Char⦄ ⦃ls' : List Lexeme⦄, follows r = true → Lexed r ls' →
    Lexed (cs ++ r) (ls ++ ls')

theorem Lexed.binary (op : BinaryOp) {r : List Char} {ls : List Lexeme} (h : Lexed r ls) :
    Lexed (' ' :: (op.symbol.toList ++ ' ' :: r)) (.operator op.spelling :: ls) :=
  (Lexed.word (spells_binary op r) h.space).space

theorem follows_binary (op : BinaryOp) (r : List Char) :
    follows (' ' :: (op.symbol.toList ++ ' ' :: r)) = true := by
  cases op <;> rfl

/-- The marks that are read as themselves wherever they stand. -/
def Punctuation.plain : Punctuation → Bool
  | .dot | .question => false
  | _ => true

theorem Lexed.mark {p : Punctuation} (hp : Punctuation.plain p = true) {r : List Char}
    {ls : List Lexeme} (h : Lexed r ls) : Lexed (p.char :: r) (.punctuation p :: ls) := by
  refine Lexed.word (w := [p.char]) (spells_punctuation p ?_) h
  rintro (rfl | rfl) <;> cases hp

theorem follows_ends {p : Punctuation} (hp : Punctuation.ends p = true) (r : List Char) :
    follows (p.char :: r) = true := by
  cases p <;> first | rfl | cases hp

/-- Texts with their lexemes, one by one. -/
inductive AllLegible : List (List Char) → List (List Lexeme) → Prop
  | nil : AllLegible [] []
  | cons {cs : List Char} {ls : List Lexeme} {css : List (List Char)} {lss : List (List Lexeme)} :
      Legible cs ls → AllLegible css lss → AllLegible (cs :: css) (ls :: lss)

/-- The text `sep` is the lexeme `l` between two operands. -/
structure Separates (sep : List Char) (l : Lexeme) : Prop where
  follows : ∀ r : List Char, follows (sep ++ r) = true
  lexed : ∀ {r : List Char} {ls : List Lexeme}, Lexed r ls → Lexed (sep ++ r) (l :: ls)

theorem separates_comma : Separates [',', ' '] (.punctuation .comma) where
  follows _ := rfl
  lexed h := Lexed.mark (p := .comma) rfl h.space

theorem separates_binary (op : BinaryOp) :
    Separates (' ' :: (op.symbol.toList ++ [' '])) (.operator op.spelling) where
  follows r := by simpa using follows_binary op r
  lexed h := by simpa using Lexed.binary op h

theorem AllLegible.tail {css : List (List Char)} {lss : List (List Lexeme)}
    (h : AllLegible css lss) {sep : List Char} {l : Lexeme} (hsep : Separates sep l)
    {r : List Char} {ls : List Lexeme} (hr : follows r = true) (hl : Lexed r ls) :
    follows (css.flatMap (sep ++ ·) ++ r) = true ∧
      Lexed (css.flatMap (sep ++ ·) ++ r) (lss.flatMap (l :: ·) ++ ls) := by
  induction h with
  | nil => exact ⟨hr, hl⟩
  | cons hcs _ ih =>
    constructor
    · simpa using hsep.follows _
    · simpa using hsep.lexed (hcs ih.1 ih.2)

theorem intercalate_cons {α : Type} (sep x : List α) (xs : List (List α)) :
    sep.intercalate (x :: xs) = x ++ xs.flatMap (sep ++ ·) := by
  induction xs generalizing x with
  | nil => simp
  | cons y ys ih => simp [List.intercalate_cons_cons, ih]

/-- Items with commas between them, in front of a closing mark. -/
theorem AllLegible.listed {css : List (List Char)} {lss : List (List Lexeme)}
    (h : AllLegible css lss) {p : Punctuation} (hp : Punctuation.ends p = true) {r : List Char}
    {ls : List Lexeme} (hl : Lexed r ls) :
    Lexed ([',', ' '].intercalate css ++ p.char :: r)
      ([.punctuation .comma].intercalate lss ++ .punctuation p :: ls) := by
  have hclose : Lexed (p.char :: r) (.punctuation p :: ls) :=
    Lexed.mark (by cases p <;> first | rfl | cases hp) hl
  cases h with
  | nil => simpa using hclose
  | cons hcs htail =>
    obtain ⟨hfollows, hlexed⟩ := htail.tail separates_comma (follows_ends hp r) hclose
    simpa only [intercalate_cons, List.append_assoc, List.cons_append, List.nil_append]
      using hcs hfollows hlexed

/-- Items with commas between them, between two marks. -/
theorem AllLegible.enclosed {css : List (List Char)} {lss : List (List Lexeme)}
    (h : AllLegible css lss) (p : Punctuation) {q : Punctuation}
    (hp : Punctuation.plain p = true) (hq : Punctuation.ends q = true) :
    Legible (p.char :: ([',', ' '].intercalate css ++ [q.char]))
      (.punctuation p :: ([.punctuation .comma].intercalate lss ++ [.punctuation q])) := by
  intro r ls _ hl
  simpa using Lexed.mark hp (h.listed hq hl)

theorem stops_commas (lss : List (List Lexeme)) {q : Punctuation}
    (hends : Punctuation.ends q = true) (rest : List Lexeme) :
    Stops 0 (lss.flatMap (.punctuation .comma :: ·) ++ .punctuation q :: rest) := by
  cases lss with
  | nil => exact stops_punctuation 0 hends rest
  | cons ls lss => exact stops_punctuation 0 rfl _

/-! ## Items -/

/-- A condition on the levels that expressions need, and one for all of a list together:
they need the greatest of the numbers. -/
structure Bound (bound : Expr → Nat → Prop) (all : List Expr → Nat → Prop) : Prop where
  nil : all [] 0
  cons : ∀ {e : Expr} {es : List Expr} {m n : Nat}, bound e m → all es n →
    all (e :: es) (max m n)

theorem bound_le (k : Nat) : Bound (fun _ => (· ≤ k)) (fun _ => (· ≤ k)) :=
  ⟨Nat.zero_le k, fun hm hn => Nat.max_le.mpr ⟨hm, hn⟩⟩

/-- The lexemes `ls` are `e` as an expression of the precedence `p`, before everything that
does not go on with it. -/
structure Item (known : String → Bool) (bound : Nat → Prop) (p : Nat) (e : Expr)
    (ls : List Lexeme) : Prop where
  starts : ∀ {q : Punctuation}, Punctuation.ends q = true → ∀ rest, ¬ StartsWith q (ls ++ rest)
  derives : ∀ {rest : List Lexeme}, Stops p rest →
    ∃ n, bound n ∧ Derives known (.expression p) (ls ++ rest) e rest 0 n

/-- Expressions with their lexemes, one by one. -/
inductive Items (known : String → Bool) (bound : Expr → Nat → Prop) (p : Nat) :
    List Expr → List (List Lexeme) → Prop
  | nil : Items known bound p [] []
  | cons {e : Expr} {ls : List Lexeme} {es : List Expr} {lss : List (List Lexeme)} :
      Item known (bound e) p e ls → Items known bound p es lss →
      Items known bound p (e :: es) (ls :: lss)

namespace Items

variable {known : String → Bool} {bound : Expr → Nat → Prop} {all : List Expr → Nat → Prop}
  {es : List Expr} {lss : List (List Lexeme)}

/-- The operands of a chain, behind its first one. -/
theorem operators (hb : Bound bound all) {op : BinaryOp} (hop : op.isLogical = true)
    (h : Items known bound op.rightPrecedence es lss) (e : Expr) {rest : List Lexeme}
    (hrest : Stops 0 rest) (hstops : Stops op.rightPrecedence rest) :
    ∃ n, all es n ∧ Derives known (.operators 0 e)
      (lss.flatMap (.operator op.spelling :: ·) ++ rest) (es.foldl (join op) e) rest 0 n := by
  have hlevel : level op = 0 := by rw [level, if_pos hop]
  have hright : op.precedence < op.rightPrecedence := by
    cases op <;> first | decide | cases hop
  induction es generalizing e lss with
  | nil =>
    cases h
    exact ⟨0, hb.nil, .noOperator hrest.noOperator⟩
  | cons e' es ih =>
    cases h with
    | @cons _ ls _ lss he htail =>
      obtain ⟨n', hn', d'⟩ := ih htail (join op e e')
      have hnext : Stops op.rightPrecedence
          (lss.flatMap (.operator op.spelling :: ·) ++ rest) := by
        cases lss with
        | nil => exact hstops
        | cons ls lss => exact stops_operator hright _
      obtain ⟨n, hn, d⟩ := he.derives hnext
      have dall := Derives.operator (BinaryOp.ofSpelling?_spelling op) (Nat.zero_le _) d d'
      rw [hlevel, Nat.zero_add, Nat.zero_add] at dall
      exact ⟨_, hb.cons hn hn', by simpa using dall⟩

variable {q : Punctuation}

theorem moreElements (hb : Bound bound all) (h : Items known bound 0 es lss)
    (hends : Punctuation.ends q = true) (hcomma : q ≠ .comma) (comma : Requirement)
    (trailing : Bool) (rest : List Lexeme) :
    ∃ n, all es n ∧ Derives known (.elements q comma trailing false)
      (lss.flatMap (.punctuation .comma :: ·) ++ .punctuation q :: rest) (.array es) rest
      0 n := by
  induction h with
  | nil => exact ⟨0, hb.nil, .noElements⟩
  | @cons e ls es lss he htail ih =>
    obtain ⟨n', hn', d'⟩ := ih
    obtain ⟨n, hn, d⟩ := he.derives (stops_commas lss hends rest)
    have hclose := he.starts hends
      (lss.flatMap (.punctuation .comma :: ·) ++ .punctuation q :: rest)
    simp only [List.flatMap_cons, List.cons_append, List.append_assoc]
    exact ⟨_, hb.cons hn hn', .element hcomma (fun h => hclose h.2) d d'⟩

/-- The items of a list with commas between them. -/
theorem elements (hb : Bound bound all) (h : Items known bound 0 es lss)
    (hends : Punctuation.ends q = true) (hcomma : q ≠ .comma) (comma : Requirement)
    (trailing : Bool) (rest : List Lexeme) :
    ∃ n, all es n ∧ Derives known (.elements q comma trailing true)
      ([.punctuation .comma].intercalate lss ++ .punctuation q :: rest) (.array es) rest
      0 n := by
  cases h with
  | nil => exact ⟨0, hb.nil, .noElements⟩
  | @cons e ls es lss he htail =>
    obtain ⟨n', hn', d'⟩ := htail.moreElements hb hends hcomma comma trailing rest
    obtain ⟨n, hn, d⟩ := he.derives (stops_commas lss hends rest)
    simp only [intercalate_cons, List.cons_append, List.nil_append, List.append_assoc]
    exact ⟨_, hb.cons hn hn', .firstElement (he.starts hends _) d d'⟩

end Items

/-- Entries under string keys with their lexemes, one by one. -/
inductive Entries (known : String → Bool) (bound : Expr → Nat → Prop) :
    List (String × Expr) → List (List Lexeme) → Prop
  | nil : Entries known bound [] []
  | cons {k : String} {e : Expr} {ls : List Lexeme} {es : List (String × Expr)}
      {lss : List (List Lexeme)} : Item known (bound e) 0 e ls → Entries known bound es lss →
      Entries known bound ((k, e) :: es) ((.string k :: .punctuation .colon :: ls) :: lss)

/-- The text of an entry. -/
theorem Legible.entry {cs : List Char} {ls : List Lexeme} (h : Legible cs ls) (k : String) :
    Legible ((quote k).toList ++ ':' :: ' ' :: cs) (.string k :: .punctuation .colon :: ls) := by
  intro r ls' hr hl
  have hvalue := Lexed.mark (p := .colon) rfl (h hr hl).space
  simpa [Punctuation.char] using Lexed.word (spells_quote k _) hvalue

namespace Entries

variable {known : String → Bool} {bound : Expr → Nat → Prop} {all : List Expr → Nat → Prop}
  {es : List (String × Expr)} {lss : List (List Lexeme)}

theorem moreEntries (hb : Bound bound all) (h : Entries known bound es lss)
    (rest : List Lexeme) :
    ∃ n, all (es.map Prod.snd) n ∧ Derives known (.entries false)
      (lss.flatMap (.punctuation .comma :: ·) ++ .punctuation .closeBrace :: rest) (.hash es)
      rest 0 n := by
  induction h with
  | nil => exact ⟨0, hb.nil, .noEntries⟩
  | @cons k e ls es lss he htail ih =>
    obtain ⟨n', hn', d'⟩ := ih
    obtain ⟨n, hn, d⟩ := he.derives (stops_commas lss (q := .closeBrace) rfl rest)
    simp only [List.flatMap_cons, List.cons_append, List.append_assoc]
    exact ⟨_, hb.cons hn hn', .entry (l := .string k) rfl d d'⟩

/-- The entries of a hash with commas between them. -/
theorem entries (hb : Bound bound all) (h : Entries known bound es lss) (rest : List Lexeme) :
    ∃ n, all (es.map Prod.snd) n ∧ Derives known (.entries true)
      ([.punctuation .comma].intercalate lss ++ .punctuation .closeBrace :: rest) (.hash es)
      rest 0 n := by
  cases h with
  | nil => exact ⟨0, hb.nil, .noEntries⟩
  | @cons k e ls es lss he htail =>
    obtain ⟨n', hn', d'⟩ := htail.moreEntries hb rest
    obtain ⟨n, hn, d⟩ := he.derives (stops_commas lss (q := .closeBrace) rfl rest)
    simp only [intercalate_cons, List.cons_append, List.nil_append, List.append_assoc]
    exact ⟨_, hb.cons hn hn', .firstEntry (l := .string k) rfl d d'⟩

end Entries

end Criteria.Expr
