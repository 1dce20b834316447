import Criteria.Expr.Render
import Criteria.Proofs.Expr.Sequence

/-!
# Texts that are read as they were written

A text prints an expression if it has the lexemes of an operand that is the expression,
whatever follows it. The texts of larger expressions are put together from those of their
parts, one lemma for each kind of expression, and `render` writes just these texts.

How many levels of nesting such a text needs can be told from the expression.
-/

namespace Criteria.Expr

/-! ## Levels -/

/-- The levels that are still taken behind an expression in print: one for each access. -/
def trail : Expr → Nat
  | access target _ _ => trail target + 1
  | _ => 0

mutual

/-- The levels that an expression needs in print. All but names, constants, brackets and
calls stand between parentheses, which take a level of their own. -/
def levels : Expr → Nat
  | const _ | name _ => 1
  | array items => 1 + levelsOfAll items
  | hash entries => 1 + levelsOfEntries entries
  | unary _ e => 2 + levels e
  | binary _ l r => 1 + max (levels l) (trail l + 2 + levels r)
  | logical _ [] => 1
  | logical _ (e :: es) => 1 + max (levels e) (trail e + 1 + levelsOfAll es)
  | conditional c y n => 1 + max (levels c) (trail c + 2 + max (levels y) (levels n))
  | call _ arguments => 1 + levelsOfAll arguments
  | access target key .index => max (levels target) (trail target + 2 + levels key)
  | access target _ .property => max (levels target) (trail target + 2)

def levelsOfAll : List Expr → Nat
  | [] => 0
  | e :: es => max (levels e) (levelsOfAll es)

def levelsOfEntries : List (String × Expr) → Nat
  | [] => 0
  | (_, e) :: es => max (levels e) (levelsOfEntries es)

end

theorem trail_lt_levels (e : Expr) : e.trail < e.levels := by
  induction e using trail.induct with
  | case1 target key kind ih =>
    cases kind <;> simp only [trail, levels] <;> omega
  | case2 e h =>
    cases e with
    | access target key kind => exact absurd rfl (h target key kind)
    | logical op es => cases es <;> simp only [trail, levels] <;> omega
    | _ => simp only [trail, levels]; omega

theorem levelsOfEntries_eq (es : List (String × Expr)) :
    levelsOfEntries es = levelsOfAll (es.map Prod.snd) := by
  induction es with
  | nil => rfl
  | cons _ _ ih => rw [levelsOfEntries, List.map_cons, levelsOfAll, ih]

theorem bound_levels : Bound (fun e n => n = e.levels) (fun es n => n = levelsOfAll es) where
  nil := by rw [levelsOfAll]
  cons hm hn := by rw [levelsOfAll, hm, hn]

/-! ## Operands -/

/-- The lexemes that an operand in print starts with. -/
def opens : Lexeme → Bool
  | .operator _ => false
  | .punctuation p => p == .openParen || p == .openBracket || p == .openBrace
  | _ => true

/-- The text `cs` with the lexemes `ls` prints `e`. What is accessed behind it is read
with the levels of `e` still taken. -/
structure Prints (known : String → Bool) (e : Expr) (cs : List Char) (ls : List Lexeme) :
    Prop where
  lexed : Legible cs ls
  derives : ∀ {rest rest' : List Lexeme} {v : Expr} {u n : Nat}, ¬ StartsWith .openParen rest →
    Derives known (.accesses e) rest v rest' u n →
    ∃ n', n' + 1 = max e.levels (e.trail + n + 1) ∧
      Derives known .primary (ls ++ rest) v rest' (e.trail + u) n'
  text : ∃ c t, cs = c :: t ∧ c ≠ '='
  starts : ∃ l t, ls = l :: t ∧ opens l = true

section

variable {known : String → Bool} {e : Expr} {cs : List Char} {ls : List Lexeme}

/-- In print an operand needs its levels, the one of the expression around it included. -/
theorem Prints.primary (h : Prints known e cs ls) {rest : List Lexeme}
    (hcall : ¬ StartsWith .openParen rest) (hmember : ¬ StartsWith .dot rest)
    (hindex : ¬ StartsWith .openBracket rest) :
    ∃ n, n + 1 = e.levels ∧ Derives known .primary (ls ++ rest) e rest e.trail n := by
  obtain ⟨n, hn, d⟩ := h.derives hcall (.noAccess hmember hindex)
  have htrail := e.trail_lt_levels
  exact ⟨n, by omega, d⟩

theorem Prints.beforeOperator (h : Prints known e cs ls) (s : Spelling) (rest : List Lexeme) :
    ∃ n, n + 1 = e.levels ∧
      Derives known .primary (ls ++ .operator s :: rest) e (.operator s :: rest) e.trail n :=
  h.primary not_startsWith_operator not_startsWith_operator not_startsWith_operator

theorem Prints.beforeQuestion (h : Prints known e cs ls) (rest : List Lexeme) :
    ∃ n, n + 1 = e.levels ∧ Derives known .primary (ls ++ .punctuation .question :: rest) e
      (.punctuation .question :: rest) e.trail n :=
  h.primary (not_startsWith_punctuation (by decide)) (not_startsWith_punctuation (by decide))
    (not_startsWith_punctuation (by decide))

/-- In print an operand is an expression of every precedence. -/
theorem Prints.expression (h : Prints known e cs ls) (p : Nat) {rest : List Lexeme}
    (hrest : Stops p rest) : Derives known (.expression p) (ls ++ rest) e rest 0 e.levels := by
  obtain ⟨n, hn, d⟩ := h.primary hrest.noCall hrest.noMember hrest.noIndex
  rw [← hn, Nat.add_comm]
  exact d.expression hrest

theorem Prints.not_startsWith (h : Prints known e cs ls) {p : Punctuation}
    (hp : opens (.punctuation p) = false) (rest : List Lexeme) :
    ¬ StartsWith p (ls ++ rest) := by
  obtain ⟨l, t, rfl, hl⟩ := h.starts
  rintro hs
  obtain rfl := startsWith_cons.mp hs
  rw [hp] at hl
  cases hl

/-- In print an operand can stand among others. -/
theorem Prints.item (h : Prints known e cs ls) (p : Nat) : Item known (· = e.levels) p e ls where
  starts {q} hq rest := h.not_startsWith (by cases q <;> first | rfl | cases hq) rest
  derives hrest := ⟨e.levels, rfl, h.expression p hrest⟩

end

/-! ## Parentheses -/

variable {known : String → Bool}

/-- The text `cs` with the lexemes `ls` is `e` between parentheses, where it has one level
less. -/
structure PrintsInside (known : String → Bool) (e : Expr) (cs : List Char) (ls : List Lexeme) :
    Prop where
  trail : e.trail = 0
  lexed : ∀ {r : List Char} {ls' : List Lexeme}, Lexed r ls' →
    Lexed (cs ++ ')' :: r) (ls ++ .punctuation .closeParen :: ls')
  derives : ∀ rest : List Lexeme, ∃ n, n + 1 = e.levels ∧ Derives known (.expression 0)
    (ls ++ .punctuation .closeParen :: rest) e (.punctuation .closeParen :: rest) 0 n

theorem PrintsInside.prints {e : Expr} {cs : List Char} {ls : List Lexeme}
    (h : PrintsInside known e cs ls) :
    Prints known e ('(' :: (cs ++ [')']))
      (.punctuation .openParen :: (ls ++ [.punctuation .closeParen])) where
  lexed r ls' _ hr := by
    simpa [Punctuation.char] using Lexed.mark (p := .openParen) rfl (h.lexed hr)
  derives {rest rest' v u n} _ d := by
    obtain ⟨n', hn', d'⟩ := h.derives rest
    refine ⟨max n' n, by rw [h.trail]; omega, ?_⟩
    simpa [h.trail] using Derives.group d' d
  text := ⟨_, _, rfl, by decide⟩
  starts := ⟨_, _, rfl, rfl⟩

theorem prints_unary {op : UnaryOp} {e : Expr} {cs : List Char} {ls : List Lexeme}
    (h : Prints known e cs ls) :
    PrintsInside known (.unary op e) (op.symbol.toList ++ cs) (.operator op.spelling :: ls) where
  trail := rfl
  lexed {r ls'} hr := by
    have hclose := h.lexed (follows_ends (p := .closeParen) rfl r) (Lexed.mark rfl hr)
    obtain ⟨c, t, rfl, hc⟩ := h.text
    have hop : Spells op.symbol.toList (.operator op.spelling) (c :: t ++ ')' :: r) :=
      spells_unary op (by simpa using hc)
    simpa using Lexed.word hop hclose
  derives rest := by
    have d := h.expression op.precedence
      (stops_punctuation op.precedence (q := .closeParen) rfl rest)
    have hstops := stops_punctuation 0 (q := .closeParen) rfl rest
    refine ⟨_, ?_, .full (.unary (UnaryOp.ofSpelling?_spelling op) d
      (.noAccess hstops.noMember hstops.noIndex))
      (.noOperator hstops.noOperator) (.noChoice (hstops.noChoice rfl))⟩
    rw [levels]
    omega

theorem prints_binary {op : BinaryOp} (hop : op.isLogical = false) {l r : Expr}
    {cl cr : List Char} {ll lr : List Lexeme} (hl : Prints known l cl ll)
    (hr : Prints known r cr lr) :
    PrintsInside known (.binary op l r) (cl ++ ' ' :: (op.symbol.toList ++ ' ' :: cr))
      (ll ++ .operator op.spelling :: lr) where
  trail := rfl
  lexed {t ls'} ht := by
    have hclose := hr.lexed (follows_ends (p := .closeParen) rfl t) (Lexed.mark rfl ht)
    simpa [Punctuation.char] using hl.lexed (follows_binary op _) (Lexed.binary op hclose)
  derives rest := by
    have hstops := stops_punctuation 0 (q := .closeParen) rfl rest
    have dr := hr.expression op.rightPrecedence
      (stops_punctuation op.rightPrecedence (q := .closeParen) rfl rest)
    obtain ⟨n, hn, dl⟩ := hl.beforeOperator op.spelling (lr ++ .punctuation .closeParen :: rest)
    have hlevel : level op = 1 := by simp [level, hop]
    have hjoin : join op l r = .binary op l r := by simp [join, hop]
    have dop : Derives known (.operators 0 (join op l r)) (.punctuation .closeParen :: rest)
        (.binary op l r) (.punctuation .closeParen :: rest) 0 0 := by
      rw [hjoin]
      exact .noOperator hstops.noOperator
    rw [List.append_assoc, List.cons_append]
    refine ⟨_, ?_, .full dl (.operator (BinaryOp.ofSpelling?_spelling op) (Nat.zero_le _) dr dop)
      (.noChoice (hstops.noChoice rfl))⟩
    rw [levels, hlevel]
    omega

theorem prints_conditional {c yes no : Expr} {cc cy cn : List Char} {lc ly ln : List Lexeme}
    (hc : Prints known c cc lc) (hy : Prints known yes cy ly) (hn : Prints known no cn ln) :
    PrintsInside known (.conditional c yes no)
      (cc ++ [' ', '?', ' '] ++ cy ++ [' ', ':', ' '] ++ cn)
      (lc ++ .punctuation .question :: ly ++ .punctuation .colon :: ln) where
  trail := rfl
  lexed {t ls'} ht := by
    have hno := (hn.lexed (follows_ends (p := .closeParen) rfl t) (Lexed.mark rfl ht)).space
    have hyes := (hy.lexed (r := ' ' :: ':' :: ' ' :: _) rfl
      (Lexed.mark (p := .colon) rfl hno).space).space
    have hquestion := Lexed.word (spells_punctuation .question (by simp [Punctuation.char])) hyes
    have hcond := hc.lexed (r := ' ' :: '?' :: ' ' :: _) rfl hquestion.space
    simpa [Punctuation.char] using hcond
  derives rest := by
    have hstops := stops_punctuation 0 (q := .closeParen) rfl rest
    have dn := hn.expression 0 hstops
    have dy := hy.expression 0 (stops_punctuation 0 (q := .colon) rfl
      (ln ++ .punctuation .closeParen :: rest))
    obtain ⟨n, hcond, dc⟩ := hc.beforeQuestion
      (ly ++ .punctuation .colon :: (ln ++ .punctuation .closeParen :: rest))
    have hcolon := hy.not_startsWith (p := .colon) rfl
      (.punctuation .colon :: (ln ++ .punctuation .closeParen :: rest))
    have dchoice := Derives.choice (e := c) hcolon dy dn (.noChoice (hstops.noChoice rfl))
    simp only [List.append_assoc, List.cons_append]
    refine ⟨_, ?_, .full dc (.noOperator not_startsWithOperator_punctuation) dchoice⟩
    rw [levels]
    omega

/-! ## Lists -/

/-- Texts with their lexemes that print expressions, one by one. -/
inductive PrintsAll (known : String → Bool) :
    List Expr → List (List Char) → List (List Lexeme) → Prop
  | nil : PrintsAll known [] [] []
  | cons {e : Expr} {cs : List Char} {ls : List Lexeme} {es : List Expr} {css : List (List Char)}
      {lss : List (List Lexeme)} : Prints known e cs ls → PrintsAll known es css lss →
      PrintsAll known (e :: es) (cs :: css) (ls :: lss)

namespace PrintsAll

variable {es : List Expr} {css : List (List Char)} {lss : List (List Lexeme)}

theorem legible (h : PrintsAll known es css lss) : AllLegible css lss := by
  induction h with
  | nil => exact .nil
  | cons h _ ih => exact .cons h.lexed ih

theorem items (h : PrintsAll known es css lss) (p : Nat) :
    Items known (fun e n => n = e.levels) p es lss := by
  induction h with
  | nil => exact .nil
  | cons h _ ih => exact .cons (h.item p) ih

end PrintsAll

/-- Texts with their lexemes that print the entries of a hash, one by one. -/
inductive PrintsEntries (known : String → Bool) :
    List (String × Expr) → List (List Char) → List (List Lexeme) → Prop
  | nil : PrintsEntries known [] [] []
  | cons {k : String} {e : Expr} {cs : List Char} {ls : List Lexeme} {es : List (String × Expr)}
      {css : List (List Char)} {lss : List (List Lexeme)} : Prints known e cs ls →
      PrintsEntries known es css lss →
      PrintsEntries known ((k, e) :: es) (((quote k).toList ++ ':' :: ' ' :: cs) :: css)
        ((.string k :: .punctuation .colon :: ls) :: lss)

namespace PrintsEntries

variable {es : List (String × Expr)} {css : List (List Char)} {lss : List (List Lexeme)}

theorem legible (h : PrintsEntries known es css lss) : AllLegible css lss := by
  induction h with
  | nil => exact .nil
  | cons h _ ih => exact .cons (h.lexed.entry _) ih

theorem items (h : PrintsEntries known es css lss) :
    Entries known (fun e n => n = e.levels) es lss := by
  induction h with
  | nil => exact .nil
  | cons h _ ih => exact .cons (h.item 0) ih

end PrintsEntries

/-! ## The other expressions -/

theorem foldl_join {op : BinaryOp} (hop : op.isLogical = true) (operands es : List Expr) :
    es.foldl (join op) (.logical op operands) = .logical op (operands ++ es) := by
  induction es generalizing operands with
  | nil => simp
  | cons e es ih => simp [join, hop, chain, ih]

/-- Operands joined one by one are a chain, if the first one is no such chain itself. -/
theorem foldl_join_of_ne {op : BinaryOp} (hop : op.isLogical = true) {first : Expr}
    (hfirst : ∀ operands, first ≠ .logical op operands) (second : Expr) (es : List Expr) :
    (second :: es).foldl (join op) first = .logical op (first :: second :: es) := by
  have hjoin : join op first second = .logical op [first, second] := by
    cases first with
    | logical op' operands =>
      have hne : op' ≠ op := fun heq => hfirst operands (heq ▸ rfl)
      simp [join, hop, chain, hne]
    | _ => simp [join, hop, chain]
  rw [List.foldl_cons, hjoin, foldl_join hop]
  rfl

theorem prints_logical {op : BinaryOp} (hop : op.isLogical = true) {first second : Expr}
    (hfirst : ∀ operands, first ≠ .logical op operands) {es : List Expr} {cs : List Char}
    {ls : List Lexeme} {css : List (List Char)} {lss : List (List Lexeme)}
    (h : Prints known first cs ls) (hall : PrintsAll known (second :: es) css lss) :
    PrintsInside known (.logical op (first :: second :: es))
      (cs ++ css.flatMap (' ' :: (op.symbol.toList ++ [' ']) ++ ·))
      (ls ++ lss.flatMap (.operator op.spelling :: ·)) where
  trail := rfl
  lexed {r ls'} hr := by
    obtain ⟨hfollows, hlexed⟩ := hall.legible.tail (separates_binary op)
      (follows_ends (p := .closeParen) rfl r) (Lexed.mark rfl hr)
    rw [List.append_assoc, List.append_assoc]
    exact h.lexed hfollows hlexed
  derives rest := by
    have hstops := stops_punctuation 0 (q := .closeParen) rfl rest
    obtain ⟨n, hn, d⟩ := (hall.items _).operators bound_levels hop first hstops
      (stops_punctuation op.rightPrecedence (q := .closeParen) rfl rest)
    rw [foldl_join_of_ne hop hfirst] at d
    obtain ⟨n₁, hn₁, d₁⟩ : ∃ n, n + 1 = first.levels ∧ Derives known .primary
        (ls ++ (lss.flatMap (.operator op.spelling :: ·) ++ .punctuation .closeParen :: rest)) first
        (lss.flatMap (.operator op.spelling :: ·) ++ .punctuation .closeParen :: rest)
        first.trail n := by
      cases hall with
      | cons h₂ _ => exact h.beforeOperator op.spelling _
    rw [List.append_assoc]
    refine ⟨_, ?_, .full d₁ d (.noChoice (hstops.noChoice rfl))⟩
    rw [levels, hn]
    omega

theorem prints_array {es : List Expr} {css : List (List Char)} {lss : List (List Lexeme)}
    (h : PrintsAll known es css lss) :
    Prints known (.array es) ('[' :: ([',', ' '].intercalate css ++ [']']))
      (.punctuation .openBracket ::
        ([.punctuation .comma].intercalate lss ++ [.punctuation .closeBracket])) where
  lexed := h.legible.enclosed .openBracket (q := .closeBracket) rfl rfl
  derives {rest rest' v u n} _ d := by
    obtain ⟨n', hn', d'⟩ := (h.items 0).elements bound_levels (q := .closeBracket) rfl (by decide)
      .arrayComma true rest
    refine ⟨max n' n, ?_, ?_⟩
    · simp only [levels, trail, hn']
      omega
    · simpa [trail] using Derives.array d' d
  text := ⟨_, _, rfl, by decide⟩
  starts := ⟨_, _, rfl, rfl⟩

theorem prints_hash {es : List (String × Expr)} {css : List (List Char)}
    {lss : List (List Lexeme)} (h : PrintsEntries known es css lss) :
    Prints known (.hash es) ('\x7b' :: ([',', ' '].intercalate css ++ ['\x7d']))
      (.punctuation .openBrace ::
        ([.punctuation .comma].intercalate lss ++ [.punctuation .closeBrace])) where
  lexed := h.legible.enclosed .openBrace (q := .closeBrace) rfl rfl
  derives {rest rest' v u n} _ d := by
    obtain ⟨n', hn', d'⟩ := h.items.entries bound_levels rest
    refine ⟨max n' n, ?_, ?_⟩
    · simp only [levels, trail, hn', levelsOfEntries_eq]
      omega
    · simpa [trail] using Derives.hash d' d
  text := ⟨_, _, rfl, by decide⟩
  starts := ⟨_, _, rfl, rfl⟩

/-- No name starts with an equals sign. -/
theorem head_of_isName {s : String} (hs : IsName s) : ∃ c t, s.toList = c :: t ∧ c ≠ '=' := by
  obtain ⟨c, cs, hcs, -, hc, -⟩ := hs.chars
  refine ⟨c, cs, hcs, ?_⟩
  rintro rfl
  cases hc

theorem prints_name {s : String} (hs : IsReference s) :
    Prints known (.name s) s.toList [.name s] where
  lexed _ _ hr hl := Lexed.word (hs.isName.spells hr) hl
  derives {_ _ _ u n} hcall d := by
    refine ⟨n, ?_, ?_⟩
    · simp only [levels, trail]
      omega
    · simpa [trail] using Derives.name hs.notConstant hcall d
  text := head_of_isName hs.isName
  starts := ⟨_, _, rfl, rfl⟩

theorem prints_call {s : String} (hs : IsReference s) (hk : known s = true) {es : List Expr}
    {css : List (List Char)} {lss : List (List Lexeme)} (h : PrintsAll known es css lss) :
    Prints known (.call s es) (s.toList ++ '(' :: ([',', ' '].intercalate css ++ [')']))
      (.name s :: .punctuation .openParen ::
        ([.punctuation .comma].intercalate lss ++ [.punctuation .closeParen])) where
  lexed r ls' hr hl := by
    have hitems := h.legible.enclosed .openParen (q := .closeParen) rfl rfl hr hl
    simpa [Punctuation.char] using Lexed.word (hs.isName.spells (r := '(' :: _) rfl) hitems
  derives {rest rest' v u n} _ d := by
    obtain ⟨n', hn', d'⟩ := (h.items 0).elements bound_levels (q := .closeParen) rfl (by decide)
      .argumentComma false rest
    refine ⟨max n' n, ?_, ?_⟩
    · simp only [levels, trail, hn']
      omega
    · simpa [trail] using Derives.call hs.notConstant hk d' d
  text := by
    obtain ⟨c, t, hct, hc⟩ := head_of_isName hs.isName
    exact ⟨c, _, by rw [hct]; rfl, hc⟩
  starts := ⟨_, _, rfl, rfl⟩

theorem prints_property {e : Expr} {cs : List Char} {ls : List Lexeme} {member : String}
    (h : Prints known e cs ls) (hm : IsName member) :
    Prints known (.access e (.const (.string member)) .property) (cs ++ '.' :: member.toList)
      (ls ++ [.punctuation .dot, .name member]) where
  lexed r ls' hr hl := by
    obtain ⟨c, t, hct, -, hc, -⟩ := hm.chars
    have hmember := Lexed.word (hm.spells hr) hl
    have hdot : Lexed ('.' :: (member.toList ++ r)) (.punctuation .dot :: .name member :: ls') := by
      refine Lexed.word (w := ['.']) (spells_punctuation .dot fun _ hhead => ?_) hmember
      rw [hct] at hhead
      cases hhead
      cases hc
    have hfollows : follows ('.' :: (member.toList ++ r)) = true := by
      rw [hct]
      exact hc
    simpa using h.lexed hfollows hdot
  derives {rest rest' v u n} hcall d := by
    have hdot : ¬ StartsWith .openParen (.punctuation .dot :: .name member :: rest) :=
      not_startsWith_punctuation (by decide)
    obtain ⟨n', hn', d'⟩ := h.derives hdot (.property hcall d)
    refine ⟨n', ?_, ?_⟩
    · simp only [levels, trail]
      omega
    · simpa [trail, Nat.add_assoc] using d'
  text := by
    obtain ⟨c, t, rfl, hc⟩ := h.text
    exact ⟨c, _, rfl, hc⟩
  starts := by
    obtain ⟨l, t, rfl, hl⟩ := h.starts
    exact ⟨l, _, rfl, hl⟩

theorem prints_index {e key : Expr} {cs ck : List Char} {ls lk : List Lexeme}
    (h : Prints known e cs ls) (hk : Prints known key ck lk) :
    Prints known (.access e key .index) (cs ++ '[' :: (ck ++ [']']))
      (ls ++ .punctuation .openBracket :: (lk ++ [.punctuation .closeBracket])) where
  lexed r ls' _ hl := by
    have hclose := hk.lexed (follows_ends (p := .closeBracket) rfl r) (Lexed.mark rfl hl)
    simpa [Punctuation.char] using h.lexed (r := '[' :: _) rfl
      (Lexed.mark (p := .openBracket) rfl hclose)
  derives {rest rest' v u n} _ d := by
    have dk := hk.expression 0 (stops_punctuation 0 (q := .closeBracket) rfl rest)
    obtain ⟨n', hn', d'⟩ := h.derives (not_startsWith_punctuation (by decide)) (.index dk d)
    refine ⟨n', ?_, ?_⟩
    · simp only [levels, trail]
      omega
    · simpa [trail, Nat.add_assoc] using d'
  text := by
    obtain ⟨c, t, rfl, hc⟩ := h.text
    exact ⟨c, _, rfl, hc⟩
  starts := by
    obtain ⟨l, t, rfl, hl⟩ := h.starts
    exact ⟨l, _, rfl, hl⟩

/-- An equals sign starts operators only. -/
theorem spells_head {cs r : List Char} {l : Lexeme} (h : Spells cs l r)
    (hl : ∀ s, l ≠ .operator s) : ∃ c t, cs = c :: t ∧ c ≠ '=' := by
  obtain ⟨c, t, rfl, -, hread⟩ := h
  refine ⟨c, t, rfl, ?_⟩
  rintro rfl
  have hchar : Punctuation.ofChar? '=' = none := rfl
  have hstart : Text.isNameStart '=' = false := rfl
  simp only [Lexeme.read, hchar, hstart] at hread
  split at hread
  · next hq => cases hq
  · split at hread
    · next hd => cases hd
    · split at hread
      · simp only [Except.ok.injEq, Prod.mk.injEq] at hread
        exact hl _ hread.1.symm
      · split at hread
        · simp only [Except.ok.injEq, Prod.mk.injEq] at hread
          exact hl _ hread.1.symm
        · cases hread

/-- A constant that is written with one lexeme. -/
theorem prints_constant {v : Value} {cs : List Char} {l : Lexeme} (hl : constant? l = some v)
    (hcs : ∀ r, follows r = true → Spells cs l r) : Prints known (.const v) cs [l] where
  lexed _ _ hr h := Lexed.word (hcs _ hr) h
  derives {_ _ _ u n} _ d := by
    refine ⟨n, ?_, ?_⟩
    · simp only [levels, trail]
      omega
    · simpa [trail] using Derives.constant hl d
  text := by
    refine spells_head (hcs [] rfl) ?_
    rintro s rfl
    cases hl
  starts := ⟨l, [], rfl, by cases l <;> first | rfl | cases hl⟩

/-- The words for constants are names to the reader of lexemes. -/
theorem isName_constant {s : String} (h : s = "null" ∨ s = "true" ∨ s = "false") : IsName s := by
  rcases h with rfl | rfl | rfl <;>
    exact isName_of_check rfl rfl rfl rfl rfl

theorem prints_literal {v : Value} (h : Literal v) :
    ∃ l, Prints known (.const v) v.source.toList [l] := by
  cases h with
  | null =>
    exact ⟨_, prints_constant (l := .name "null") rfl
      fun _ hr => (isName_constant (.inl rfl)).spells hr⟩
  | bool b =>
    cases b
    · exact ⟨_, prints_constant (l := .name "false") rfl
        fun _ hr => (isName_constant (.inr (.inr rfl))).spells hr⟩
    · exact ⟨_, prints_constant (l := .name "true") rfl
        fun _ hr => (isName_constant (.inr (.inl rfl))).spells hr⟩
  | string s => exact ⟨_, prints_constant rfl fun r _ => spells_quote s r⟩
  | @int n nonneg lower upper fits =>
    obtain ⟨k, rfl⟩ := Int.eq_ofNat_of_zero_le nonneg
    have htext : (Value.number (.int k lower upper)).source.toList = Nat.toDigits 10 k := by
      simp [Value.source, Number.source, intText, Decimal.sign]
    rw [htext]
    refine ⟨_, prints_constant ?_ fun r hr => spells_nat (n := k) (by omega) hr⟩
    simp only [constant?, Numeric.toValue, Value.ofInt, dif_pos (And.intro lower upper)]
  | @float x finite nonneg =>
    have htext : (Value.number (.float x finite)).source.toList = x.sourceText := by
      simp [Value.source, Number.source]
    rw [htext]
    refine ⟨_, prints_constant ?_ fun r hr => spells_float finite nonneg hr⟩
    simp only [constant?, Numeric.toValue, Value.ofFloat, dif_pos finite]

/-! ## What is rendered -/

/-- The functions write their calls in the usual way. -/
def UsualCalls (functions : List Function) : Prop :=
  ∀ f ∈ functions, f.render = Function.renderCall f.name

/-- The expression has a text, and it prints the expression. -/
def Renders (functions : List Function) (e : Expr) : Prop :=
  ∃ s ls, e.render functions = .ok s ∧ Prints (Function.isKnown functions) e s.toList ls

variable {functions : List Function}

theorem Renders.intro {e : Expr} {s : String} {cs : List Char} {ls : List Lexeme}
    (hs : e.render functions = .ok s) (hcs : s.toList = cs)
    (h : Prints (Function.isKnown functions) e cs ls) : Renders functions e :=
  ⟨s, ls, hs, hcs ▸ h⟩

theorem printsAll_of_renders {es : List Expr} (h : ∀ e ∈ es, Renders functions e) :
    ∃ ss lss, renderAll functions es = .ok ss ∧
      PrintsAll (Function.isKnown functions) es (ss.map String.toList) lss := by
  induction es with
  | nil => exact ⟨[], [], rfl, .nil⟩
  | cons e es ih =>
    obtain ⟨s, ls, hs, hprints⟩ := h e (List.mem_cons_self ..)
    obtain ⟨ss, lss, hss, hall⟩ := ih fun e he => h e (List.mem_cons_of_mem _ he)
    exact ⟨s :: ss, ls :: lss, renderAll_cons hs hss, .cons hprints hall⟩

theorem printsEntries_of_renders {es : List (String × Expr)}
    (h : ∀ p ∈ es, Renders functions p.2) :
    ∃ ss lss, renderEntries functions es = .ok ss ∧
      PrintsEntries (Function.isKnown functions) es (ss.map String.toList) lss := by
  induction es with
  | nil => exact ⟨[], [], rfl, .nil⟩
  | cons p es ih =>
    obtain ⟨k, e⟩ := p
    obtain ⟨s, ls, hs, hprints⟩ := h (k, e) (List.mem_cons_self ..)
    obtain ⟨ss, lss, hss, hall⟩ := ih fun e he => h e (List.mem_cons_of_mem _ he)
    have hentry := PrintsEntries.cons (k := k) hprints hall
    exact ⟨(quote k ++ ": " ++ s) :: ss, (.string k :: .punctuation .colon :: ls) :: lss,
      renderEntries_cons hs hss, by simpa using hentry⟩

theorem find?_of_isKnown {s : String} (h : Function.isKnown functions s = true) :
    ∃ f ∈ functions, Function.find? functions s = some f ∧ f.name = s := by
  obtain ⟨g, hg, hname⟩ := List.any_eq_true.mp h
  cases hf : Function.find? functions s with
  | none => exact absurd hname (List.find?_eq_none.mp hf g hg)
  | some f =>
    exact ⟨f, List.mem_of_find?_eq_some hf, rfl, by simpa using List.find?_some hf⟩

section Render

variable {e l r c yes no : Expr} {s sl sr sc sy sn : String} {ss : List String}

theorem render_array {es : List Expr} (h : renderAll functions es = .ok ss) :
    render functions (.array es) = .ok ("[" ++ String.intercalate ", " ss ++ "]") := by
  rw [render, h]
  rfl

theorem render_hash {es : List (String × Expr)} (h : renderEntries functions es = .ok ss) :
    render functions (.hash es) = .ok ("\x7b" ++ String.intercalate ", " ss ++ "\x7d") := by
  rw [render, h]
  rfl

theorem render_unary {op : UnaryOp} (h : render functions e = .ok s) :
    render functions (.unary op e) = .ok ("(" ++ op.symbol ++ s ++ ")") := by
  rw [render, h]
  rfl

theorem render_binary {op : BinaryOp} (hl : render functions l = .ok sl)
    (hr : render functions r = .ok sr) :
    render functions (.binary op l r) = .ok ("(" ++ sl ++ " " ++ op.symbol ++ " " ++ sr ++ ")") := by
  rw [render, hl, hr]
  rfl

theorem render_logical {op : BinaryOp} {es : List Expr} (h : renderAll functions es = .ok ss) :
    render functions (.logical op es) =
      .ok ("(" ++ String.intercalate (" " ++ op.symbol ++ " ") ss ++ ")") := by
  rw [render, h]
  rfl

theorem render_conditional (hc : render functions c = .ok sc) (hy : render functions yes = .ok sy)
    (hn : render functions no = .ok sn) :
    render functions (.conditional c yes no) =
      .ok ("(" ++ sc ++ " ? " ++ sy ++ " : " ++ sn ++ ")") := by
  rw [render, hc, hy, hn]
  rfl

theorem render_call {f : Function} {es : List Expr}
    (hf : Function.find? functions s = some f) (h : renderAll functions es = .ok ss) :
    render functions (.call s es) = .ok (f.render ss) := by
  rw [render, hf, h]
  rfl

theorem render_property {member : String} (h : render functions e = .ok s) :
    render functions (.access e (.const (.string member)) .property) =
      .ok (s ++ "." ++ member) := by
  rw [render, h]
  rfl

end Render

/-- Every regular tree has a text, which prints it. -/
theorem renders_of_regular (hf : UsualCalls functions) {e : Expr}
    (h : Regular (Function.isKnown functions) e) : Renders functions e := by
  induction h with
  | const hv =>
    obtain ⟨l, hl⟩ := prints_literal hv
    exact .intro (by rw [render]) rfl hl
  | name hs => exact .intro (by rw [render]) rfl (prints_name hs)
  | array _ ih =>
    obtain ⟨ss, lss, hss, hall⟩ := printsAll_of_renders ih
    exact .intro (render_array hss) (by simp) (prints_array hall)
  | hash _ ih =>
    obtain ⟨ss, lss, hss, hall⟩ := printsEntries_of_renders ih
    exact .intro (render_hash hss) (by simp) (prints_hash hall)
  | unary _ ih =>
    obtain ⟨s, ls, hs, hprints⟩ := ih
    exact .intro (render_unary hs) (by simp) (prints_unary hprints).prints
  | binary hop _ _ ihl ihr =>
    obtain ⟨sl, ll, hsl, hl⟩ := ihl
    obtain ⟨sr, lr, hsr, hr⟩ := ihr
    exact .intro (render_binary hsl hsr) (by simp) (prints_binary hop hl hr).prints
  | logical hop hfirst _ _ _ ih₁ ih₂ ih =>
    obtain ⟨s, ls, hs, hprints⟩ := ih₁
    obtain ⟨ss, lss, hss, hall⟩ := printsAll_of_renders (List.forall_mem_cons.mpr ⟨ih₂, ih⟩)
    exact .intro (render_logical (renderAll_cons hs hss)) (by simp [intercalate_cons])
      (prints_logical hop hfirst hprints hall).prints
  | conditional _ _ _ ihc ihy ihn =>
    obtain ⟨sc, lc, hsc, hc⟩ := ihc
    obtain ⟨sy, ly, hsy, hy⟩ := ihy
    obtain ⟨sn, ln, hsn, hn⟩ := ihn
    exact .intro (render_conditional hsc hsy hsn) (by simp) (prints_conditional hc hy hn).prints
  | call hs hk _ ih =>
    obtain ⟨f, hmem, hfind, hname⟩ := find?_of_isKnown hk
    obtain ⟨ss, lss, hss, hall⟩ := printsAll_of_renders ih
    refine .intro (render_call hfind hss) ?_ (prints_call hs hk hall)
    simp [hf f hmem, hname, Function.renderCall]
  | property _ hm ih =>
    obtain ⟨s, ls, hs, hprints⟩ := ih
    exact .intro (render_property hs) (by simp) (prints_property hprints hm)
  | index _ _ ih ihk =>
    obtain ⟨s, ls, hs, hprints⟩ := ih
    obtain ⟨sk, lk, hsk, hk⟩ := ihk
    exact .intro (render_index hs hsk) (by simp) (prints_index hprints hk)

/-! ## Reading back -/

/-- A text whose lexemes are derived to be an expression is read as it, or refused for its
nesting if it needs more room than there is. -/
theorem ofText_of_lexed {known : String → Bool} {e : Expr} {s : String} {ls : List Lexeme}
    {need : Nat} (hs : Lexed s.toList ls) (d : Derives known (.expression 0) ls e [] 0 need) :
    (need ≤ maxNesting → ofText known s = .ok e) ∧
      (¬ need ≤ maxNesting → ∃ position, ofText known s = .error (.fault .tooDeep position s)) := by
  obtain ⟨text, hscan, htext⟩ := hs.scan_eq 0
  subst htext
  exact ofText_of_derives hscan d

/-- A printed text is read as what it prints, or refused for its nesting if it has more
levels than there is room for. -/
theorem Prints.ofText_eq {known : String → Bool} {e : Expr} {s : String} {ls : List Lexeme}
    (h : Prints known e s.toList ls) :
    (e.levels ≤ maxNesting → ofText known s = .ok e) ∧
      (¬ e.levels ≤ maxNesting →
        ∃ position, ofText known s = .error (.fault .tooDeep position s)) := by
  have hlexed := h.lexed (r := []) rfl .nil
  rw [List.append_nil] at hlexed
  exact ofText_of_lexed hlexed (h.expression 0 (stops_nil 0))

theorem ofText_of_prints {known : String → Bool} {e : Expr} {s : String} {ls : List Lexeme}
    (h : Prints known e s.toList ls) :
    ofText known s = .ok e ∨ ∃ position, ofText known s = .error (.fault .tooDeep position s) := by
  by_cases hn : e.levels ≤ maxNesting
  · exact .inl (h.ofText_eq.1 hn)
  · exact .inr (h.ofText_eq.2 hn)

/-- The text of an expression that was read is read as the same expression, unless it nests
too deep. -/
theorem ofText_render (hf : UsualCalls functions) {source : String} {e : Expr}
    (h : ofText (Function.isKnown functions) source = .ok e) :
    ∃ s, e.render functions = .ok s ∧
      (ofText (Function.isKnown functions) s = .ok e ∨
        ∃ position, ofText (Function.isKnown functions) s =
          .error (.fault .tooDeep position s)) := by
  obtain ⟨s, ls, hs, hprints⟩ := renders_of_regular hf (regular_of_ofText h)
  exact ⟨s, hs, ofText_of_prints hprints⟩

/-- A function that returns its argument. -/
def echo : Function where
  name := "echo"
  render := Function.renderCall "echo"
  call _ arguments := .ok (arguments.headD .null)

theorem isReference_echo : IsReference "echo" :=
  ⟨isName_of_check rfl rfl rfl rfl rfl, rfl⟩

/-- The tree of `echo(1) + 1`. -/
def echoSum : Expr :=
  .binary .add (.call "echo" [.const Numeric.one.toValue]) (.const Numeric.one.toValue)

theorem ofText_echoSum : ofText (Function.isKnown [echo]) "echo(1) + 1" = .ok echoSum := by
  have hknown : Function.isKnown [echo] "echo" = true := rfl
  have hone : Lexed ['1'] [.number .one] := Lexed.word (spells_nat (n := 1) (by decide) rfl) .nil
  have hcall : Prints (Function.isKnown [echo]) (.call "echo" [.const Numeric.one.toValue])
      "echo(1)".toList [.name "echo", .punctuation .openParen, .number .one,
        .punctuation .closeParen] :=
    prints_call isReference_echo rfl
      (.cons (prints_constant rfl fun _ => spells_nat (n := 1) (by decide)) .nil)
  have hlexed : Lexed "echo(1) + 1".toList [.name "echo", .punctuation .openParen, .number .one,
      .punctuation .closeParen, .operator .plus, .number .one] :=
    hcall.lexed (r := [' ', '+', ' ', '1']) rfl (Lexed.binary .add hone)
  have hstops := stops_punctuation 0 (q := .closeParen) rfl
    [.operator .plus, .number .one]
  have darg : Derives (Function.isKnown [echo]) (.expression 0) (.number .one ::
      .punctuation .closeParen :: [.operator .plus, .number .one]) _ _ 0 1 :=
    Derives.expression (.constant rfl (.noAccess hstops.noMember hstops.noIndex)) hstops
  have dright : Derives (Function.isKnown [echo]) (.expression 31) [.number .one] _ _ 0 1 :=
    Derives.expression (.constant rfl (.noAccess (stops_nil 0).noMember (stops_nil 0).noIndex))
      (stops_nil 31)
  have d := Derives.full
    (.call rfl hknown (.firstElement (by simp [StartsWith]) darg .noElements)
      (.noAccess not_startsWith_operator not_startsWith_operator))
    (.operator rfl (Nat.zero_le _) dright (.noOperator (stops_nil 0).noOperator))
    (.noChoice ((stops_nil 0).noChoice rfl))
  exact (ofText_of_lexed hlexed d).1 (by decide)

theorem ofText_render_echoSum :
    ∃ s, echoSum.render [echo] = .ok s ∧
      (ofText (Function.isKnown [echo]) s = .ok echoSum ∨
        ∃ position, ofText (Function.isKnown [echo]) s = .error (.fault .tooDeep position s)) :=
  ofText_render (List.forall_mem_singleton.mpr rfl) ofText_echoSum

end Criteria.Expr
