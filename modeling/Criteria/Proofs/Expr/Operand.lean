import Criteria.Proofs.Decimal.Grammar
import Criteria.Proofs.Expr.Printing

/-!
# Operands and the room they need

What is read as one operand, and how many levels of nesting that takes: none for a name or
a constant, one more for each operator, call or pair of brackets around it. Conditions in a
chain need two levels more than the deepest of them, and the chain one more.
-/

namespace Criteria.Expr

variable {known : String → Bool} {k : Nat}

/-- The text `cs` with the lexemes `ls` is the operand `e`, read in at most `k` levels. -/
structure Operand (known : String → Bool) (k : Nat) (e : Expr) (cs : List Char)
    (ls : List Lexeme) : Prop where
  lexed : Legible cs ls
  starts : ∀ {q : Punctuation}, Punctuation.ends q = true → ∀ rest, ¬ StartsWith q (ls ++ rest)
  derives : ∀ {rest : List Lexeme}, Stops 50 rest →
    ∃ n, n ≤ k ∧ Derives known .primary (ls ++ rest) e rest 0 n

theorem Operand.item {p : Nat} (hp : p ≤ 50) {e : Expr} {cs : List Char} {ls : List Lexeme}
    (h : Operand known k e cs ls) : Item known (· ≤ 1 + k) p e ls where
  starts := h.starts
  derives hrest := by
    obtain ⟨n, hn, d⟩ := h.derives (hrest.mono hp)
    exact ⟨1 + n, Nat.add_le_add_left hn 1, d.expression hrest⟩

theorem Operand.mono {k' : Nat} (hk : k ≤ k') {e : Expr} {cs : List Char} {ls : List Lexeme}
    (h : Operand known k e cs ls) : Operand known k' e cs ls where
  lexed := h.lexed
  starts := h.starts
  derives hrest := by
    obtain ⟨n, hn, d⟩ := h.derives hrest
    exact ⟨n, Nat.le_trans hn hk, d⟩

theorem not_startsWith_cons {q : Punctuation} {l : Lexeme} (hl : l ≠ .punctuation q)
    (ls : List Lexeme) : ¬ StartsWith q (l :: ls) :=
  fun h => hl (startsWith_cons.mp h)

theorem operand_name {s : String} (hs : IsReference s) :
    Operand known 0 (.name s) s.toList [.name s] where
  lexed _ _ hr h := Lexed.word (hs.isName.spells hr) h
  starts _ _ := not_startsWith_cons (by simp) _
  derives hrest := ⟨0, Nat.le_refl 0, .name hs.notConstant hrest.noCall (hrest.noAccess _)⟩

/-- A constant that is written with one lexeme. -/
theorem operand_constant {v : Value} {cs : List Char} {l : Lexeme} (hl : constant? l = some v)
    (hcs : ∀ r, follows r = true → Spells cs l r) : Operand known 0 (.const v) cs [l] where
  lexed _ _ hr h := Lexed.word (hcs _ hr) h
  starts _ _ := not_startsWith_cons (by rintro rfl; cases hl) _
  derives hrest := ⟨0, Nat.le_refl 0, .constant hl (hrest.noAccess _)⟩

theorem operand_word {s : String} {v : Value} (hs : s = "null" ∨ s = "true" ∨ s = "false")
    (hv : constantWord? s = some v) : Operand known 0 (.const v) s.toList [.name s] :=
  operand_constant hv fun _ hr => (isName_constant hs).spells hr

theorem operand_string {escape : Char → List Char} (he : Escapes escape) (s : String) :
    Operand known 0 (.const (.string s)) ('"' :: (s.toList.flatMap escape ++ ['"']))
      [.string s] :=
  operand_constant rfl fun r _ => spells_string he s r

/-! ## Numerals -/

/-- A constant behind a sign. -/
def signed (negative : Bool) (v : Value) : Expr :=
  if negative then .unary .negate (.const v) else .const v

/-- The expression that a numeral behind a sign is. -/
def ofNumeral (cs : List Char) : Expr :=
  let (negative, digits) := Numeral.splitSign cs
  signed negative (Lexeme.readNumeral digits).1.toNumeric.toValue

theorem splitSign_sign (negative : Bool) {w : Written} (hw : w.Proper) :
    Numeral.splitSign (Decimal.sign negative ++ w.text) = (negative, w.text) :=
  Numeral.splitSign_append (Decimal.signMark_sign negative)
    (Numeral.unsigned_of_isDigits hw.whole _)

theorem ofNumeral_eq (negative : Bool) {w : Written} (hw : w.Proper) :
    ofNumeral (Decimal.sign negative ++ w.text) =
      signed negative w.numeral.toNumeric.toValue := by
  have hread := Written.readNumeral_text hw (endsNumeral_of_follows (r := []) rfl)
  rw [List.append_nil] at hread
  simp only [ofNumeral, splitSign_sign negative hw, hread]

/-- A numeral behind a sign is a constant, or the negation of one. -/
theorem operand_numeral (known : String → Bool) (negative : Bool) {w : Written}
    (hw : w.Proper) :
    ∃ ls, Operand known 1 (ofNumeral (Decimal.sign negative ++ w.text))
      (Decimal.sign negative ++ w.text) ls := by
  rw [ofNumeral_eq negative hw]
  cases negative with
  | false => exact ⟨_, (operand_constant rfl fun _ => spells_written hw).mono (Nat.zero_le 1)⟩
  | true =>
    refine ⟨[.operator .minus, .number w.numeral.toNumeric], fun r ls' hr h => ?_, fun _ _ => ?_,
      fun hrest => ⟨1, Nat.le_refl 1, ?_⟩⟩
    · obtain ⟨c, t, hct, hc⟩ := spells_head (spells_written hw hr) (by simp)
      have hnext : (w.text ++ r).head? ≠ some '=' := by
        rw [hct]
        simpa using hc
      rw [List.append_assoc]
      exact Lexed.word (spells_unary .negate hnext) (Lexed.word (spells_written hw hr) h)
    · exact not_startsWith_operator
    · have hinner : Stops UnaryOp.negate.precedence _ := hrest.mono (by decide)
      have d : Derives known (.expression UnaryOp.negate.precedence)
          (.number w.numeral.toNumeric :: _) _ _ 0 1 :=
        Derives.expression (.constant rfl (hinner.noAccess _)) hinner
      exact .unary rfl d (hrest.noAccess _)

/-! ## Larger operands -/

section

variable {es : List Expr} {css : List (List Char)} {lss : List (List Lexeme)}

theorem operand_array (hlegible : AllLegible css lss)
    (hitems : Items known (fun _ => (· ≤ k)) 0 es lss) :
    Operand known k (.array es) ('[' :: ([',', ' '].intercalate css ++ [']']))
      (.punctuation .openBracket ::
        ([.punctuation .comma].intercalate lss ++ [.punctuation .closeBracket])) where
  lexed := hlegible.enclosed .openBracket (q := .closeBracket) rfl rfl
  starts hq _ := not_startsWith_cons (by rintro ⟨⟩; cases hq) _
  derives {rest} hrest := by
    obtain ⟨n, hn, d⟩ := hitems.elements (bound_le k) (q := .closeBracket) rfl (by decide)
      .arrayComma true rest
    refine ⟨max n 0, by omega, ?_⟩
    simpa using Derives.array d (hrest.noAccess _)

theorem operand_hash {es : List (String × Expr)} (hlegible : AllLegible css lss)
    (hentries : Entries known (fun _ => (· ≤ k)) es lss) :
    Operand known k (.hash es) ('\x7b' :: ([',', ' '].intercalate css ++ ['\x7d']))
      (.punctuation .openBrace ::
        ([.punctuation .comma].intercalate lss ++ [.punctuation .closeBrace])) where
  lexed := hlegible.enclosed .openBrace (q := .closeBrace) rfl rfl
  starts hq _ := not_startsWith_cons (by rintro ⟨⟩; cases hq) _
  derives {rest} hrest := by
    obtain ⟨n, hn, d⟩ := hentries.entries (bound_le k) rest
    refine ⟨max n 0, by omega, ?_⟩
    simpa using Derives.hash d (hrest.noAccess _)

theorem operand_call {s : String} (hs : IsReference s) (hk : known s = true)
    (hlegible : AllLegible css lss) (hitems : Items known (fun _ => (· ≤ k)) 0 es lss) :
    Operand known k (.call s es) (s.toList ++ '(' :: ([',', ' '].intercalate css ++ [')']))
      (.name s :: .punctuation .openParen ::
        ([.punctuation .comma].intercalate lss ++ [.punctuation .closeParen])) where
  lexed r ls' hr hl := by
    have hlist := hlegible.enclosed .openParen (q := .closeParen) rfl rfl hr hl
    simpa [Punctuation.char] using Lexed.word (hs.isName.spells (r := '(' :: _) rfl) hlist
  starts _ _ := not_startsWith_cons (by simp) _
  derives {rest} hrest := by
    obtain ⟨n, hn, d⟩ := hitems.elements (bound_le k) (q := .closeParen) rfl (by decide)
      .argumentComma false rest
    refine ⟨max n 0, by omega, ?_⟩
    simpa using Derives.call hs.notConstant hk d (hrest.noAccess _)

theorem operand_not {e : Expr} {cs : List Char} {ls : List Lexeme} (h : Operand known k e cs ls)
    (hcs : ∃ c t, cs = c :: t ∧ c ≠ '=') :
    Operand known (1 + k) (.unary .not e) ('!' :: cs) (.operator .bang :: ls) where
  lexed r ls' hr hl := by
    obtain ⟨c, t, rfl, hc⟩ := hcs
    exact Lexed.word (w := ['!']) (spells_unary .not (by simpa using hc)) (h.lexed hr hl)
  starts _ _ := not_startsWith_operator
  derives hrest := by
    obtain ⟨n, hn, d⟩ := h.derives hrest
    have hnot : UnaryOp.ofSpelling? .bang = some .not := rfl
    exact ⟨max (1 + n) 0, by omega, .unary hnot (d.expression hrest) (hrest.noAccess _)⟩

/-- A call as it is usually written, and its negation. -/
theorem operand_renderCall {f : String} (hf : IsReference f) (hk : known f = true)
    (ss : List String) (hlegible : AllLegible (ss.map String.toList) lss)
    (hitems : Items known (fun _ => (· ≤ k)) 0 es lss) :
    ∃ ls, Operand known k (.call f es) (Function.renderCall f ss).toList ls ∧
      Operand known (1 + k) (.unary .not (.call f es)) ("!" ++ Function.renderCall f ss).toList
        (.operator .bang :: ls) := by
  have htext : (Function.renderCall f ss).toList =
      f.toList ++ '(' :: ([',', ' '].intercalate (ss.map String.toList) ++ [')']) := by
    simp [Function.renderCall]
  have hcall := operand_call hf hk hlegible hitems
  obtain ⟨c, t, hct, hc⟩ := head_of_isName hf.isName
  have hnot := operand_not hcall ⟨c, _, by rw [hct]; rfl, hc⟩
  rw [← htext] at hcall hnot
  exact ⟨_, hcall, by simpa using hnot⟩

end

theorem operand_group {e : Expr} {cs : List Char} {ls : List Lexeme} (hlexed : Legible cs ls)
    (h : Item known (· ≤ k) 0 e ls) :
    Operand known k e ('(' :: (cs ++ [')']))
      (.punctuation .openParen :: (ls ++ [.punctuation .closeParen])) where
  lexed r ls' _ hl := by
    have hclose := hlexed (follows_ends (p := .closeParen) rfl r) (Lexed.mark rfl hl)
    simpa [Punctuation.char] using Lexed.mark (p := .openParen) rfl hclose
  starts hq _ := not_startsWith_cons (by rintro ⟨⟩; cases hq) _
  derives {rest} hrest := by
    obtain ⟨n, hn, d⟩ := h.derives (stops_punctuation 0 (q := .closeParen) rfl rest)
    refine ⟨max n 0, by omega, ?_⟩
    simpa using Derives.group d (hrest.noAccess _)

/-- A text that is an item is read as an expression, if there is room for it. -/
theorem Item.ofText_eq {e : Expr} {s : String} {ls : List Lexeme} (hlexed : Legible s.toList ls)
    (h : Item known (· ≤ k) 0 e ls) (hk : k ≤ maxNesting) : ofText known s = .ok e := by
  obtain ⟨n, hn, d⟩ := h.derives (stops_nil 0)
  have hlexed := hlexed (r := []) rfl .nil
  simp only [List.append_nil] at hlexed d
  exact (ofText_of_lexed hlexed d).1 (Nat.le_trans hn hk)

/-! ## Chains -/

/-- Conditions joined by one logical operator. -/
def joinAll (op : BinaryOp) : List Expr → Expr
  | [] => .const .null
  | e :: es => es.foldl (join op) e

/-- The text `cs` with the lexemes `ls` is a part `e` of a chain of conditions. It starts
with an operand, and the operators behind that go on with those that follow `e`. -/
structure Part (known : String → Bool) (k : Nat) (e : Expr) (cs : List Char)
    (ls : List Lexeme) : Prop where
  lexed : Legible cs ls
  starts : ∀ {q : Punctuation}, Punctuation.ends q = true → ∀ rest, ¬ StartsWith q (ls ++ rest)
  derives : ∀ {p : Nat} {rest rest' : List Lexeme} {v : Expr} {u n : Nat}, p ≤ 20 →
    Stops 20 rest → Derives known (.operators p e) rest v rest' u n →
    ∃ f mid n₁ u₂ n₂, Derives known .primary (ls ++ rest) f mid 0 n₁ ∧
      Derives known (.operators p f) mid v rest' u₂ n₂ ∧
      n₁ ≤ k ∧ n₂ ≤ max k (1 + n) ∧ u₂ ≤ 1 + u

section

variable {e : Expr} {cs : List Char} {ls : List Lexeme}

theorem Operand.part (h : Operand known k e cs ls) : Part known k e cs ls where
  lexed := h.lexed
  starts := h.starts
  derives {p rest rest' v u n} _ hrest d := by
    obtain ⟨n₁, hn₁, d₁⟩ := h.derives (hrest.mono (by decide))
    exact ⟨e, rest, n₁, u, n, d₁, d, hn₁, by omega, by omega⟩

/-- A comparison by an operator. -/
theorem part_binary {op : BinaryOp} (hop : op.precedence = 20) {s : String} (hs : IsReference s)
    (h : Operand known k e cs ls) :
    Part known (2 + k) (.binary op (.name s) e)
      (s.toList ++ ' ' :: (op.symbol.toList ++ ' ' :: cs)) (.name s :: .operator op.spelling :: ls) where
  lexed r ls' hr hl := by
    have hop := Lexed.binary op (h.lexed hr hl)
    simpa using Lexed.word (hs.isName.spells (follows_binary op _)) hop
  starts _ _ := not_startsWith_cons (by simp) _
  derives {p rest rest' v u n} hp hrest d := by
    have hright : op.rightPrecedence = 21 := by
      cases op <;> first | rfl | exact absurd hop (by decide)
    have hjoin : join op (.name s) e = .binary op (.name s) e := by
      cases op <;> first | rfl | exact absurd hop (by decide)
    have hlevel : level op = 1 := by
      cases op <;> first | rfl | exact absurd hop (by decide)
    obtain ⟨n', hn', d'⟩ := (h.item (p := op.rightPrecedence) (by omega)).derives
      (hrest.mono (by omega))
    have dname : Derives known .primary (.name s :: .operator op.spelling :: (ls ++ rest))
        (.name s) (.operator op.spelling :: (ls ++ rest)) 0 0 :=
      .name hs.notConstant not_startsWith_operator
        (.noAccess not_startsWith_operator not_startsWith_operator)
    rw [← hjoin] at d
    refine ⟨_, _, 0, _, _, dname, .operator (BinaryOp.ofSpelling?_spelling op) (by omega) d' d, ?_⟩
    omega

variable {p : Nat}

/-- A part is an expression by itself. -/
theorem Part.item (hp : p ≠ 0) (hle : p ≤ 20) (hk : 1 ≤ k) (h : Part known k e cs ls) :
    Item known (· ≤ 1 + k) p e ls where
  starts := h.starts
  derives hrest := by
    obtain ⟨f, mid, n₁, u₂, n₂, d₁, d₂, hn₁, hn₂, -⟩ :=
      h.derives hle (hrest.mono hle) (.noOperator hrest.noOperator)
    exact ⟨_, by omega, .operand hp d₁ d₂⟩

theorem Part.mono {k' : Nat} (hk : k ≤ k') (h : Part known k e cs ls) :
    Part known k' e cs ls where
  lexed := h.lexed
  starts := h.starts
  derives hp hrest d := by
    obtain ⟨f, mid, n₁, u₂, n₂, d₁, d₂, hn₁, hn₂, hu⟩ := h.derives hp hrest d
    exact ⟨f, mid, n₁, u₂, n₂, d₁, d₂, by omega, by omega, hu⟩

end

/-- Texts with their lexemes that are parts, one by one. -/
inductive Parts (known : String → Bool) (k : Nat) :
    List Expr → List (List Char) → List (List Lexeme) → Prop
  | nil : Parts known k [] [] []
  | cons {e : Expr} {cs : List Char} {ls : List Lexeme} {es : List Expr} {css : List (List Char)}
      {lss : List (List Lexeme)} : Part known k e cs ls → Parts known k es css lss →
      Parts known k (e :: es) (cs :: css) (ls :: lss)

namespace Parts

variable {es : List Expr} {css : List (List Char)} {lss : List (List Lexeme)}

theorem legible (h : Parts known k es css lss) : AllLegible css lss := by
  induction h with
  | nil => exact .nil
  | cons h _ ih => exact .cons h.lexed ih

theorem items {p : Nat} (hp : p ≠ 0) (hle : p ≤ 20) (hk : 1 ≤ k) (h : Parts known k es css lss) :
    Items known (fun _ => (· ≤ 1 + k)) p es lss := by
  induction h with
  | nil => exact .nil
  | cons h _ ih => exact .cons (h.item hp hle hk) ih

/-- The chain of all parts, with a logical operator between them. -/
theorem chain {op : BinaryOp} (hop : op.isLogical = true) (hk : 1 ≤ k)
    (h : Parts known k es css lss) (hne : es ≠ []) :
    Legible ((' ' :: (op.symbol.toList ++ [' '])).intercalate css)
      ([.operator op.spelling].intercalate lss) ∧
    Item known (· ≤ 3 + k) 0 (joinAll op es) ([.operator op.spelling].intercalate lss) := by
  have hprec : op.precedence < 20 := by cases op <;> first | decide | cases hop
  have hright : op.rightPrecedence ≠ 0 ∧ op.rightPrecedence ≤ 20 := by
    cases op <;> first | decide | cases hop
  cases h with
  | nil => exact absurd rfl hne
  | @cons e cs ls es css lss hfirst htail =>
    simp only [intercalate_cons]
    constructor
    · intro r ls' hr hl
      obtain ⟨hfollows, hlexed⟩ := htail.legible.tail (separates_binary op) hr hl
      rw [List.append_assoc, List.append_assoc]
      exact hfirst.lexed hfollows hlexed
    refine ⟨fun hq rest => ?_, fun {rest} hrest => ?_⟩
    · rw [List.append_assoc]
      exact hfirst.starts hq _
    · obtain ⟨n, hn, d⟩ := (htail.items hright.1 hright.2 hk).operators (bound_le (1 + k)) hop e
        hrest (hrest.mono (Nat.zero_le _))
      have hstops : Stops 20 (lss.flatMap (.operator op.spelling :: ·) ++ rest) := by
        cases lss with
        | nil => exact hrest.mono (Nat.zero_le _)
        | cons ls lss => exact stops_operator hprec _
      obtain ⟨f, mid, n₁, u₂, n₂, d₁, d₂, hn₁, hn₂, hu⟩ :=
        hfirst.derives (Nat.zero_le 20) hstops d
      rw [List.append_assoc]
      exact ⟨_, by omega, .full d₁ d₂ (.noChoice (hrest.noChoice rfl))⟩

end Parts

end Criteria.Expr
