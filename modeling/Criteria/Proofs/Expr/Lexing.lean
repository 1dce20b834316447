import Criteria.Expr.Token
import Criteria.Proofs.Decimal.Layout

/-!
# Texts and their lexemes

The lexemes of a text, apart from their places. A text that is written word by word has
the lexemes that were written, provided that each word is followed by something which
does not go on with it; what may follow a name or a numeral is `Follows`.
-/

namespace Criteria

open Text

/-- The text `cs` is written with the lexemes `ls`. -/
inductive Lexed : List Char → List Lexeme → Prop
  | nil : Lexed [] []
  | blank {c : Char} {cs : List Char} {ls : List Lexeme} : isBlank c = true → Lexed cs ls →
      Lexed (c :: cs) ls
  | lexeme {c : Char} {cs : List Char} {l : Lexeme} {n : Nat} {ls : List Lexeme} :
      isBlank c = false → Lexeme.read c cs = .ok (l, n) → Lexed (cs.drop n) ls →
      Lexed (c :: cs) (l :: ls)

namespace Lexed

theorem scan_eq {cs : List Char} {ls : List Lexeme} (h : Lexed cs ls) (position : Nat) :
    ∃ text, Token.scan position cs = .ok text ∧ text.tokens.map Token.lexeme = ls := by
  induction h generalizing position with
  | nil =>
    rw [Token.scan]
    exact ⟨_, rfl, rfl⟩
  | @blank c cs ls hc _ ih =>
    rw [Token.scan, if_pos hc]
    exact ih _
  | @lexeme c cs l n ls hc hread _ ih =>
    obtain ⟨text, hscan, htext⟩ := ih (position + Token.byteLength (c :: cs.take n))
    rw [Token.scan]
    simp only [hc, hread, hscan]
    exact ⟨_, rfl, by simp [htext]⟩

theorem of_scan {cs : List Char} {position : Nat} {text : TokenList}
    (h : Token.scan position cs = .ok text) : Lexed cs (text.tokens.map Token.lexeme) := by
  induction hn : cs.length using Nat.strongRecOn generalizing cs position text with
  | _ n ih =>
    subst hn
    cases cs with
    | nil =>
      rw [Token.scan] at h
      cases h
      exact .nil
    | cons c cs =>
      rw [Token.scan] at h
      cases hc : isBlank c
      · simp only [hc, Bool.false_eq_true, if_false] at h
        rcases hread : Lexeme.read c cs with obstacle | ⟨l, n⟩
        · simp [hread] at h
        simp only [hread] at h
        rcases hscan : Token.scan (position + Token.byteLength (c :: cs.take n)) (cs.drop n)
          with e | rest
        · simp [hscan] at h
        simp only [hscan] at h
        cases h
        refine .lexeme hc hread (ih _ ?_ hscan rfl)
        simp only [List.length_drop, List.length_cons]
        omega
      · simp only [hc, if_true] at h
        exact .blank hc (ih _ (Nat.lt_succ_self _) h rfl)

end Lexed

/-- The word `w` in front of `r` is the lexeme `l`. -/
def Spells (w : List Char) (l : Lexeme) (r : List Char) : Prop :=
  ∃ c cs, w = c :: cs ∧ isBlank c = false ∧ Lexeme.read c (cs ++ r) = .ok (l, cs.length)

theorem Lexed.word {w r : List Char} {l : Lexeme} {ls : List Lexeme} (h : Spells w l r)
    (hr : Lexed r ls) : Lexed (w ++ r) (l :: ls) := by
  obtain ⟨c, cs, rfl, hc, hread⟩ := h
  rw [List.cons_append]
  exact .lexeme hc hread (by rwa [List.drop_left])

theorem Lexed.space {r : List Char} {ls : List Lexeme} (hr : Lexed r ls) : Lexed (' ' :: r) ls :=
  .blank rfl hr

/-! ## Signs and words -/

theorem spells_binary (op : BinaryOp) (r : List Char) :
    Spells op.symbol.toList (.operator op.spelling) (' ' :: r) := by
  cases op <;> exact ⟨_, _, rfl, rfl, rfl⟩

theorem spells_unary (op : UnaryOp) {r : List Char} (hr : r.head? ≠ some '=') :
    Spells op.symbol.toList (.operator op.spelling) r := by
  cases op with
  | not =>
    refine ⟨'!', [], rfl, rfl, ?_⟩
    cases r with
    | nil => rfl
    | cons c r =>
      have hc : '=' ≠ c := by
        rintro rfl
        exact hr rfl
      have hsign : Lexeme.readSigns? ('!' :: c :: r) = some (.bang, 1) := by
        simp [Lexeme.readSigns?, Spelling.inSigns, Spelling.text, hc]
        rfl
      have hword : Lexeme.readWords? ('!' :: c :: r) = none := rfl
      simp only [List.nil_append, Lexeme.read, hword, hsign]
      rfl
  | negate => exact ⟨_, _, rfl, rfl, rfl⟩
  | plus => exact ⟨_, _, rfl, rfl, rfl⟩

theorem spells_punctuation (p : Punctuation) {r : List Char}
    (hr : p = .dot ∨ p = .question → r.head? ≠ some p.char) :
    Spells [p.char] (.punctuation p) r := by
  refine ⟨_, _, rfl, by cases p <;> rfl, ?_⟩
  have hword : Lexeme.readWords? (p.char :: r) = none := by cases p <;> rfl
  have hsign : Lexeme.readSigns? (p.char :: r) = none := by
    cases r with
    | nil => cases p <;> rfl
    | cons c r =>
      cases p with
      | dot =>
        have hc : '.' ≠ c := by
          rintro rfl
          exact hr (.inl rfl) rfl
        simp [Lexeme.readSigns?, Spelling.inSigns, Spelling.text, Punctuation.char, hc]
      | question =>
        have hc : '?' ≠ c := by
          rintro rfl
          exact hr (.inr rfl) rfl
        simp [Lexeme.readSigns?, Spelling.inSigns, Spelling.text, Punctuation.char, hc]
      | _ => rfl
  simp only [List.nil_append, Lexeme.read, hword, hsign]
  cases p <;> rfl

/-! ## Names -/

/-- What may follow a name or a numeral: neither of them goes on with it, and no operator
of two words is made of it and the name. -/
def follows : List Char → Bool
  | [] => true
  | '.' :: c :: _ => isNameStart c
  | ' ' :: c :: _ => !isPlainBlank c && c != 'w'
  | c :: _ => [',', ':', '(', ')', '[', ']', '\x7d'].contains c

/-- A text that is a name wherever a name may end behind it. -/
structure IsName (s : String) : Prop where
  chars : ∃ c cs, s.toList = c :: cs ∧ isBlank c = false ∧ isNameStart c = true ∧
    ∀ d ∈ cs, isNameChar d = true
  notWord : ∀ p ∈ Spelling.inWords, p.2 ≠ [s]

theorem isName_of_check {s : String} {c : Char} {cs : List Char} (text : s.toList = c :: cs)
    (notBlank : isBlank c = false) (start : isNameStart c = true)
    (chars : cs.all isNameChar = true) (notWord : Spelling.inWords.all (·.2 != [s]) = true) :
    IsName s where
  chars := ⟨c, cs, text, notBlank, start, List.all_eq_true.mp chars⟩
  notWord p hp := bne_iff_ne.mp (List.all_eq_true.mp notWord p hp)

theorem not_nameChar_of_isPlainBlank {c : Char} (h : isPlainBlank c = true) :
    isNameChar c = false := by
  simp only [isPlainBlank, Bool.or_eq_true, beq_iff_eq] at h
  rcases h with ((rfl | rfl) | rfl) | rfl <;> rfl

theorem not_isNameStart_sign {s : Spelling} (h : s ∈ Spelling.inSigns) :
    ∃ d ds, s.text.toList = d :: ds ∧ isNameStart d = false := by
  cases s <;> first
    | exact ⟨_, _, rfl, rfl⟩
    | simp [Spelling.inSigns] at h

section NameStart

variable {c : Char} (h : isNameStart c = true)

include h

theorem readSigns?_of_isNameStart (cs : List Char) : Lexeme.readSigns? (c :: cs) = none := by
  simp only [Lexeme.readSigns?, List.findSome?_eq_none_iff]
  intro s hs
  obtain ⟨d, ds, htext, hd⟩ := not_isNameStart_sign hs
  have hne : (d == c) = false := by
    refine beq_false_of_ne ?_
    rintro rfl
    simp [hd] at h
  simp [htext, List.isPrefixOf, hne]

theorem ofChar?_of_isNameStart : Punctuation.ofChar? c = none := by
  simp only [Punctuation.ofChar?, List.find?_eq_none]
  intro p _ hp
  obtain rfl : p.char = c := eq_of_beq hp
  cases p <;> cases h

theorem not_quote_of_isNameStart : (c = '"' || c = '\'') = false := by
  rw [Bool.eq_false_iff]
  intro hc
  rcases Bool.or_eq_true_iff.mp hc with hc | hc <;> obtain rfl := of_decide_eq_true hc <;> cases h

theorem not_digit_of_isNameStart : isAsciiDigit c = false := by
  rw [Bool.eq_false_iff]
  intro hc
  have hrange : 48 ≤ c.toNat ∧ c.toNat ≤ 57 := by
    simpa [isAsciiDigit, Char.le_def, UInt32.le_iff_toNat_le] using hc
  rcases Bool.or_eq_true_iff.mp h with h | h
  · have hsmall : c.toNat < 0x80 := by omega
    simp only [isAlphabetic, hsmall, if_true, isAsciiLetter, Char.le_def, UInt32.le_iff_toNat_le,
      Bool.or_eq_true, Bool.and_eq_true, decide_eq_true_eq] at h
    have ha : 'a'.val.toNat = 97 := rfl
    have hA : 'A'.val.toNat = 65 := rfl
    have hval : c.val.toNat = c.toNat := rfl
    omega
  · obtain rfl : c = '_' := eq_of_beq h
    cases hc

end NameStart

/-! The lexeme at the start of a text that starts like a name. -/

theorem read_of_isNameStart {c : Char} (h : isNameStart c = true) (cs : List Char) :
    Lexeme.read c cs =
      match Lexeme.readWords? (c :: cs) with
      | some (s, extent) => .ok (.operator s, extent - 1)
      | none =>
        .ok (.name (String.ofList (c :: cs.takeWhile isNameChar)), (cs.takeWhile isNameChar).length)
      := by
  unfold Lexeme.read
  cases Lexeme.readWords? (c :: cs) <;>
    simp only [not_quote_of_isNameStart h, not_digit_of_isNameStart h, readSigns?_of_isNameStart h,
      ofChar?_of_isNameStart h, h, Bool.false_eq_true, if_false, if_true]

theorem isNameChar_of_isNameStart {c : Char} (h : isNameStart c = true) : isNameChar c = true := by
  rcases Bool.or_eq_true_iff.mp h with h | h
  · simp [isNameChar, isAlphanumeric_of_isAlphabetic h]
  · simp [isNameChar, h]

/-- No character of a name comes first. -/
def NoNameChar (cs : List Char) : Prop := ∀ c ∈ cs.head?, isNameChar c = false

theorem takeWhile_isNameChar {cs r : List Char} (hcs : ∀ d ∈ cs, isNameChar d = true)
    (hr : NoNameChar r) : (cs ++ r).takeWhile isNameChar = cs := by
  rw [List.takeWhile_append_of_pos hcs]
  cases r with
  | nil => simp
  | cons c r => simp [hr c rfl]

/-- A word in front of something else than a name character is all of a name there. -/
theorem eq_of_isPrefixOf {w cs r : List Char} (hw : ∀ d ∈ w, isNameChar d = true)
    (hcs : ∀ d ∈ cs, isNameChar d = true) (hr : NoNameChar r)
    (hp : w.isPrefixOf (cs ++ r) = true) (hnext : NoNameChar ((cs ++ r).drop w.length)) :
    w = cs := by
  obtain ⟨t, ht⟩ := List.isPrefixOf_iff_prefix.mp hp
  rw [← ht, List.drop_left] at hnext
  rw [← takeWhile_isNameChar hw hnext, ht, takeWhile_isNameChar hcs hr]

theorem noNameChar_of_any {cs : List Char} (h : cs.head?.any isNameChar = false) :
    NoNameChar cs := by
  intro c hc
  rw [hc] at h
  simpa using h

theorem isNameChar_word {p : Spelling × List String} (hp : p ∈ Spelling.inWords) {w : String}
    (hw : w ∈ p.2) : ∀ d ∈ w.toList, isNameChar d = true := by
  have hall : Spelling.inWords.all (·.2.all (·.toList.all isNameChar)) = true := by decide
  simp only [List.all_eq_true] at hall
  exact hall p hp w hw

/-- Words at the start of a name and what follows it begin with the whole name. -/
theorem wordsExtent?_name {w : String} {ws : List String} {cs r : List Char} {n : Nat}
    (hw : ∀ d ∈ w.toList, isNameChar d = true) (hcs : ∀ d ∈ cs, isNameChar d = true)
    (hr : NoNameChar r) (h : Lexeme.wordsExtent? (w :: ws) (cs ++ r) = some n) :
    w.toList = cs ∧ (ws ≠ [] → r.takeWhile isPlainBlank ≠ [] ∧
      (Lexeme.wordsExtent? ws (r.drop (r.takeWhile isPlainBlank).length)).isSome) := by
  cases ws with
  | nil =>
    simp only [Lexeme.wordsExtent?] at h
    split at h
    · next hc =>
      obtain ⟨hp, hnext⟩ := Bool.and_eq_true_iff.mp hc
      refine ⟨eq_of_isPrefixOf hw hcs hr hp (noNameChar_of_any ?_), by simp⟩
      simpa [String.length_toList] using hnext
    · cases h
  | cons w' ws =>
    simp only [Lexeme.wordsExtent?] at h
    split at h
    · next hc =>
      obtain ⟨hp, hgap⟩ := Bool.and_eq_true_iff.mp hc
      have hnext : NoNameChar ((cs ++ r).drop w.toList.length) := by
        intro c hc
        rw [String.length_toList] at hc
        obtain ⟨t, ht⟩ : ∃ t, (cs ++ r).drop w.length = c :: t := by
          rwa [Option.mem_def, List.head?_eq_some_iff] at hc
        rw [ht, List.takeWhile_cons] at hgap
        cases hb : isPlainBlank c
        · simp [hb] at hgap
        · exact not_nameChar_of_isPlainBlank hb
      have hwhole := eq_of_isPrefixOf hw hcs hr hp hnext
      have hdrop : (cs ++ r).drop w.length = r := by
        rw [← String.length_toList, hwhole, List.drop_left]
      rw [hdrop] at h hgap
      refine ⟨hwhole, fun _ => ⟨by simpa using hgap, ?_⟩⟩
      rw [Option.map_eq_some_iff] at h
      obtain ⟨m, hm, -⟩ := h
      rw [← List.drop_drop, hdrop] at hm
      rw [hm]
      rfl
    · cases h

theorem noNameChar_of_follows {r : List Char} (h : follows r = true) : NoNameChar r := by
  unfold follows at h
  split at h
  · rintro _ ⟨⟩
  · rintro _ ⟨⟩
    rfl
  · rintro _ ⟨⟩
    rfl
  · rintro _ ⟨⟩
    simp only [List.contains_eq_mem, decide_eq_true_eq, List.mem_cons, List.not_mem_nil,
      or_false] at h
    rcases h with rfl | rfl | rfl | rfl | rfl | rfl | rfl <;> rfl

theorem gap_of_follows {r : List Char} (h : follows r = true)
    (hgap : r.takeWhile isPlainBlank ≠ []) :
    ∃ c r', r = ' ' :: c :: r' ∧ isPlainBlank c = false ∧ c ≠ 'w' := by
  unfold follows at h
  split at h
  · exact absurd rfl hgap
  · exact absurd rfl hgap
  · next c r' =>
    simp only [Bool.and_eq_true, Bool.not_eq_true', bne_iff_ne] at h
    exact ⟨c, r', rfl, h⟩
  · simp only [List.contains_eq_mem, decide_eq_true_eq, List.mem_cons, List.not_mem_nil,
      or_false] at h
    rcases h with rfl | rfl | rfl | rfl | rfl | rfl | rfl <;> exact absurd rfl hgap

namespace IsName

variable {s : String} (hs : IsName s)

include hs

theorem isNameChar : ∀ d ∈ s.toList, Text.isNameChar d = true := by
  obtain ⟨c, cs, hcs, -, hc, hrest⟩ := hs.chars
  rw [hcs]
  rintro d hd
  rcases List.mem_cons.mp hd with rfl | hd
  · exact isNameChar_of_isNameStart hc
  · exact hrest d hd

theorem readWords? {r : List Char} (hr : follows r = true) :
    Lexeme.readWords? (s.toList ++ r) = none := by
  simp only [Lexeme.readWords?, List.findSome?_eq_none_iff, Option.map_eq_none_iff]
  rintro ⟨spelling, ws⟩ hp
  cases hn : Lexeme.wordsExtent? ws (s.toList ++ r) with
  | none => rfl
  | some n =>
    exfalso
    cases ws with
    | nil => cases hn
    | cons w ws =>
      obtain ⟨hw, htail⟩ := wordsExtent?_name (isNameChar_word hp (List.mem_cons_self ..))
        hs.isNameChar (noNameChar_of_follows hr) hn
      obtain rfl := String.toList_inj.mp hw
      cases ws with
      | nil => exact hs.notWord _ hp rfl
      | cons w' ws =>
        -- the name is none of the words alone, so it goes on with `with`
        have hpairs : ∀ p ∈ Spelling.inWords,
            p.2.length ≤ 1 ∨ p.2.head? = some "not" ∨ p.2.tail = ["with"] := by decide
        obtain ⟨hgap, hsome⟩ := htail (by simp)
        obtain ⟨c, r', rfl, hc, hc'⟩ := gap_of_follows hr hgap
        rcases hpairs _ hp with h | h | h
        · simp at h
        · have hnot : w = "not" := Option.some.inj h
          exact hs.notWord (.notWord, ["not"]) (by decide) (by rw [hnot])
        · have hwith : w' :: ws = ["with"] := h
          have htake : List.takeWhile isPlainBlank (' ' :: c :: r') = [' '] := by
            rw [List.takeWhile_cons, List.takeWhile_cons, hc]
            rfl
          have hprefix : "with".toList.isPrefixOf (c :: r') = false := by
            show ('w' == c && _) = false
            rw [beq_false_of_ne (Ne.symm hc'), Bool.false_and]
          simp only [hwith, htake, List.length_singleton, List.drop_succ_cons, List.drop_zero,
            Lexeme.wordsExtent?, hprefix, Bool.false_and, Bool.false_eq_true, if_false,
            Option.isSome_none] at hsome

/-- A name is read as such before everything that may follow it. -/
theorem spells {r : List Char} (hr : follows r = true) : Spells s.toList (.name s) r := by
  obtain ⟨c, cs, hcs, hblank, hc, hrest⟩ := hs.chars
  refine ⟨c, cs, hcs, hblank, ?_⟩
  have hwords := hs.readWords? hr
  rw [hcs, List.cons_append] at hwords
  rw [read_of_isNameStart hc, hwords, takeWhile_isNameChar hrest (noNameChar_of_follows hr), ← hcs,
    String.ofList_toList]

end IsName

theorem isNameStart_of_read {c : Char} {cs : List Char} {s : String} {n : Nat}
    (h : Lexeme.read c cs = .ok (.name s, n)) : isNameStart c = true := by
  unfold Lexeme.read at h
  split at h
  · split at h <;> cases h
  · split at h
    · cases h
    · split at h
      · cases h
      · split at h
        · cases h
        · split at h
          · cases h
          · split at h
            · next hc => exact hc
            · cases h

theorem wordsExtent?_self {w : String} {r : List Char} (hr : NoNameChar r) :
    Lexeme.wordsExtent? [w] (w.toList ++ r) = some w.length := by
  have hprefix : w.toList.isPrefixOf (w.toList ++ r) = true :=
    List.isPrefixOf_iff_prefix.mpr (List.prefix_append ..)
  have hnext : r.head?.any isNameChar = false := by
    cases r with
    | nil => rfl
    | cons c r => exact hr c rfl
  have hdrop : (w.toList ++ r).drop w.length = r := by
    rw [← String.length_toList, List.drop_left]
  simp [Lexeme.wordsExtent?, hprefix, hdrop, hnext]

theorem noNameChar_dropWhile (cs : List Char) : NoNameChar (cs.dropWhile isNameChar) := by
  intro c hc
  have := List.head?_dropWhile_not isNameChar cs
  rw [hc] at this
  simpa using this

/-- What is read as a name is one. -/
theorem isName_of_read {c : Char} {cs : List Char} {s : String} {n : Nat}
    (hblank : isBlank c = false) (h : Lexeme.read c cs = .ok (.name s, n)) : IsName s := by
  have hc := isNameStart_of_read h
  rw [read_of_isNameStart hc] at h
  cases hwords : Lexeme.readWords? (c :: cs) with
  | some p => simp [hwords] at h
  | none =>
    simp only [hwords, Except.ok.injEq, Prod.mk.injEq, Lexeme.name.injEq] at h
    obtain ⟨rfl, -⟩ := h
    constructor
    · refine ⟨c, cs.takeWhile isNameChar, by simp, hblank, hc, fun d hd => ?_⟩
      exact List.all_eq_true.mp List.all_takeWhile d hd
    · rintro ⟨spelling, ws⟩ hp rfl
      have hself := wordsExtent?_self (w := String.ofList (c :: cs.takeWhile isNameChar))
        (noNameChar_dropWhile cs)
      rw [String.toList_ofList, List.cons_append, List.takeWhile_append_dropWhile] at hself
      simp only [Lexeme.readWords?, List.findSome?_eq_none_iff, Option.map_eq_none_iff] at hwords
      have hnone := hwords _ hp
      rw [hself] at hnone
      cases hnone

/-! ## Strings -/

/-- A way to write characters between double quotes that `readString` undoes. -/
def Escapes (e : Char → List Char) : Prop :=
  ∀ c, (e c = [c] ∧ c ≠ '"' ∧ c ≠ '\\') ∨ ∃ d, e c = ['\\', d] ∧ Lexeme.unescape d = c

theorem escapes_escape : Escapes escape := by
  intro c
  unfold escape
  split
  all_goals first
    | exact .inr ⟨_, rfl, rfl⟩
    | exact .inl ⟨rfl, by assumption, by assumption⟩

/-- The rest `u` of a string literal behind its opening quote `q`, for the string `v`. -/
inductive Quoted (q : Char) : List Char → List Char → Prop
  | close : Quoted q [q] []
  | escape {d : Char} {u v : List Char} : '\\' ≠ q → Quoted q u v →
      Quoted q ('\\' :: d :: u) (Lexeme.unescape d :: v)
  | plain {c : Char} {u v : List Char} : c ≠ q → c ≠ '\\' → Quoted q u v →
      Quoted q (c :: u) (c :: v)

theorem Quoted.readString {q : Char} {u v : List Char} (h : Quoted q u v) (t : List Char) :
    Lexeme.readString q (u ++ t) = some (v, u.length) := by
  induction h with
  | close =>
    cases t with
    | nil => exact if_pos rfl
    | cons d t => exact if_pos rfl
  | @escape d u v hq _ ih =>
    rw [List.cons_append, List.cons_append, Lexeme.readString, if_neg hq, if_pos rfl, ih]
    rfl
  | @plain c u v hq hslash hu ih =>
    obtain ⟨d, u', hd⟩ : ∃ d u', u ++ t = d :: u' := by
      cases hu <;> exact ⟨_, _, rfl⟩
    rw [List.cons_append, hd, Lexeme.readString, if_neg hq, if_neg hslash, ← hd, ih]
    rfl

theorem quoted_flatMap {e : Char → List Char} (he : Escapes e) (s : List Char) :
    Quoted '"' (s.flatMap e ++ ['"']) s := by
  induction s with
  | nil => exact .close
  | cons c s ih =>
    rw [List.flatMap_cons, List.append_assoc]
    rcases he c with ⟨hc, hquote, hslash⟩ | ⟨d, hc, hd⟩
    · rw [hc]
      exact .plain hquote hslash ih
    · rw [hc, ← hd]
      exact .escape (by decide) ih

theorem spells_string {e : Char → List Char} (he : Escapes e) (s : String) (r : List Char) :
    Spells ('"' :: (s.toList.flatMap e ++ ['"'])) (.string s) r := by
  refine ⟨_, _, rfl, rfl, ?_⟩
  rw [Lexeme.read, if_pos (by decide), (quoted_flatMap he s.toList).readString r]
  simp

theorem spells_quote (s : String) (r : List Char) : Spells (quote s).toList (.string s) r := by
  rw [quote, String.toList_ofList]
  exact spells_string escapes_escape s r

/-! ## Numerals -/

/-- Neither a digit nor an underscore comes first. -/
def NoDigit (cs : List Char) : Prop := ∀ c ∈ cs.head?, isAsciiDigit c = false ∧ c ≠ '_'

theorem digitRun_append {digits r : List Char} (hd : IsDigits digits) (hr : NoDigit r) :
    Lexeme.digitRun (digits ++ r) = digits := by
  obtain ⟨d, ds, rfl⟩ := List.exists_cons_of_ne_nil hd.ne_nil
  have hds : ∀ c ∈ ds, (isAsciiDigit c || c == '_') = true := by
    intro c hc
    rw [hd.digit c (List.mem_cons_of_mem d hc), Bool.true_or]
  have hrest : r.takeWhile (fun c => isAsciiDigit c || c == '_') = [] := by
    cases r with
    | nil => rfl
    | cons c r =>
      obtain ⟨hdigit, hne⟩ := hr c rfl
      simp [hdigit, hne]
  rw [List.cons_append, Lexeme.digitRun, if_pos (hd.digit d (List.mem_cons_self ..)),
    List.takeWhile_append_of_pos hds, hrest, List.append_nil]

theorem runDigits_eq {digits : List Char} (hd : IsDigits digits) :
    Lexeme.runDigits digits = digits :=
  List.filter_eq_self.mpr hd.digit

/-- A numeral ends here: what comes does not go on with it. -/
structure EndsNumeral (r : List Char) : Prop where
  noDigit : NoDigit r
  noFraction : Lexeme.fractionRun? r = none
  noExponent : Lexeme.exponentRun? r = none

theorem endsNumeral_of_follows {r : List Char} (h : follows r = true) : EndsNumeral r := by
  unfold follows at h
  split at h
  · exact ⟨nofun, rfl, rfl⟩
  · refine ⟨?_, ?_, rfl⟩
    · rintro _ ⟨⟩
      exact ⟨rfl, by decide⟩
    · simp [Lexeme.fractionRun?, Lexeme.digitRun, not_digit_of_isNameStart h]
  · refine ⟨?_, rfl, rfl⟩
    rintro _ ⟨⟩
    exact ⟨rfl, by decide⟩
  · simp only [List.contains_eq_mem, decide_eq_true_eq, List.mem_cons, List.not_mem_nil,
      or_false] at h
    rcases h with rfl | rfl | rfl | rfl | rfl | rfl | rfl <;>
      refine ⟨?_, rfl, rfl⟩ <;>
      · rintro _ ⟨⟩
        exact ⟨rfl, by decide⟩

/-- The extent of a point and the run behind it. -/
def fractionExtent : Option (List Char) → Nat
  | some run => run.length + 1
  | none => 0

/-- The extent of the letter and the sign of an exponent, and of the run behind them. -/
def exponentExtent : Option (Bool × Nat × List Char) → Nat
  | some (_, marks, run) => marks + run.length
  | none => 0

/-- A numeral is put together from its runs. -/
theorem readNumeral_runs {cs whole : List Char} {fraction : Option (List Char)}
    {exponent : Option (Bool × Nat × List Char)} (hwhole : Lexeme.digitRun cs = whole)
    (hfraction : Lexeme.fractionRun? (cs.drop whole.length) = fraction)
    (hexponent : Lexeme.exponentRun? ((cs.drop whole.length).drop (fractionExtent fraction)) =
      exponent) :
    Lexeme.readNumeral cs =
      (⟨false, Lexeme.runDigits whole, fraction.map Lexeme.runDigits,
        exponent.map fun e => Written.exponentValue (e.1, Lexeme.runDigits e.2.2)⟩,
        whole.length + (fractionExtent fraction + exponentExtent exponent)) := by
  have hread : Lexeme.readNumeral cs =
      match Lexeme.exponentRun? ((cs.drop (Lexeme.digitRun cs).length).drop
        (fractionExtent (Lexeme.fractionRun? (cs.drop (Lexeme.digitRun cs).length)))) with
      | some (negative, marks, run) => _
      | none => _ := rfl
  rw [hread, hwhole, hfraction, hexponent]
  cases exponent with
  | none => rfl
  | some e =>
    obtain ⟨negative, marks, run⟩ := e
    simp only [exponentExtent, Nat.add_assoc]
    rfl

section Digit

variable {c : Char} (h : isAsciiDigit c = true)

include h

theorem toNat_of_digit : 48 ≤ c.toNat ∧ c.toNat ≤ 57 := by
  simpa [isAsciiDigit, Char.le_def, UInt32.le_iff_toNat_le] using h

theorem not_isBlank_of_digit : isBlank c = false := by
  obtain ⟨hlow, hhigh⟩ := toNat_of_digit h
  simp only [isBlank, within, blankRanges, List.any_cons, List.any_nil, Bool.or_false,
    Bool.or_eq_false_iff, Bool.and_eq_false_iff, decide_eq_false_iff_not]
  omega

theorem not_quote_of_digit : (c = '"' || c = '\'') = false := by
  rw [Bool.eq_false_iff]
  intro hc
  rcases Bool.or_eq_true_iff.mp hc with hc | hc <;> obtain rfl := of_decide_eq_true hc <;> cases h

end Digit

namespace Written

theorem noDigit_exponentText {r : List Char} (hr : NoDigit r) (e : Option (Bool × List Char)) :
    NoDigit (exponentText e ++ r) := by
  cases e with
  | none => exact hr
  | some e =>
    rintro _ ⟨⟩
    exact ⟨rfl, by decide⟩

theorem noDigit_fractionText {r : List Char} (hr : NoDigit r) (f : Option (List Char)) :
    NoDigit (fractionText f ++ r) := by
  cases f with
  | none => exact hr
  | some digits =>
    rintro _ ⟨⟩
    exact ⟨rfl, by decide⟩

theorem fractionRun?_text {f : Option (List Char)} (hf : ∀ digits ∈ f, IsDigits digits)
    {r : List Char} (hr : NoDigit r) (hnone : Lexeme.fractionRun? r = none) :
    Lexeme.fractionRun? (fractionText f ++ r) = f := by
  cases f with
  | none => exact hnone
  | some digits =>
    have hd := hf digits rfl
    simp [fractionText, Lexeme.fractionRun?, digitRun_append hd hr, hd.ne_nil]

theorem fractionRun?_exponentText {r : List Char} (hnone : Lexeme.fractionRun? r = none)
    (e : Option (Bool × List Char)) : Lexeme.fractionRun? (exponentText e ++ r) = none := by
  cases e with
  | none => exact hnone
  | some e => rfl

theorem exponentRun?_text {negative : Bool} {digits : List Char} (hd : IsDigits digits)
    {r : List Char} (hr : NoDigit r) :
    Lexeme.exponentRun? (exponentText (some (negative, digits)) ++ r) =
      some (negative, 2, digits) := by
  cases negative <;>
    simp [exponentText, Lexeme.exponentRun?, digitRun_append hd hr, hd.ne_nil]

theorem drop_fractionText (f : Option (List Char)) (r : List Char) :
    (fractionText f ++ r).drop (fractionExtent f) = r := by
  cases f with
  | none => rfl
  | some digits => exact List.drop_left

theorem exponentRun?_written {e : Option (Bool × List Char)} (he : ∀ p ∈ e, IsDigits p.2)
    {r : List Char} (hr : NoDigit r) (hnone : Lexeme.exponentRun? r = none) :
    Lexeme.exponentRun? (exponentText e ++ r) = e.map fun p => (p.1, 2, p.2) := by
  cases e with
  | none => exact hnone
  | some p => exact exponentRun?_text (he p rfl) hr

theorem readNumeral_text {w : Written} (hw : w.Proper) {r : List Char} (hr : EndsNumeral r) :
    Lexeme.readNumeral (w.text ++ r) = (w.numeral, w.text.length) := by
  obtain ⟨whole, fraction, exponent⟩ := w
  have hexp := noDigit_exponentText hr.noDigit exponent
  have hrun : Lexeme.digitRun (whole ++ (fractionText fraction ++ (exponentText exponent ++ r))) =
      whole := digitRun_append hw.whole (noDigit_fractionText hexp fraction)
  have hfraction : Lexeme.fractionRun? (fractionText fraction ++ (exponentText exponent ++ r)) =
      fraction :=
    fractionRun?_text hw.fraction hexp (fractionRun?_exponentText hr.noFraction exponent)
  have hexponent := exponentRun?_written hw.exponent hr.noDigit hr.noExponent
  simp only [Written.text, List.append_assoc]
  rw [readNumeral_runs hrun (by rw [List.drop_left, hfraction])
    (by rw [List.drop_left, drop_fractionText, hexponent])]
  simp only [Written.numeral, runDigits_eq hw.whole, Prod.mk.injEq, Numeral.mk.injEq, true_and,
    List.length_append]
  refine ⟨⟨?_, ?_⟩, ?_⟩
  · cases fraction with
    | none => rfl
    | some digits => rw [Option.map_some, runDigits_eq (hw.fraction digits rfl)]
  · cases exponent with
    | none => rfl
    | some e => simp only [Option.map_some, runDigits_eq (hw.exponent e rfl)]
  · have hpoint : fractionExtent fraction = (fractionText fraction).length := by
      cases fraction <;> rfl
    have hletter : exponentExtent (exponent.map fun p => (p.1, 2, p.2)) =
        (exponentText exponent).length := by
      cases exponent with
      | none => rfl
      | some e => exact Nat.add_comm ..
    rw [hpoint, hletter]

end Written

/-- A numeral is read as the number it denotes before everything that may follow it. -/
theorem spells_written {w : Written} (hw : w.Proper) {r : List Char} (hr : follows r = true) :
    Spells w.text (.number w.numeral.toNumeric) r := by
  obtain ⟨d, ds, hds⟩ := List.exists_cons_of_ne_nil hw.whole.ne_nil
  have hd : isAsciiDigit d = true := hw.whole.digit d (by simp [hds])
  obtain ⟨cs, hcs⟩ : ∃ cs, w.text = d :: cs := ⟨_, by rw [Written.text, hds, List.cons_append]⟩
  refine ⟨d, cs, hcs, not_isBlank_of_digit hd, ?_⟩
  have hread := Written.readNumeral_text hw (endsNumeral_of_follows hr)
  rw [hcs, List.cons_append] at hread
  simp only [Lexeme.read, not_quote_of_digit hd, hd, hread, Bool.false_eq_true, if_false, if_true,
    List.length_cons, Nat.add_sub_cancel]

theorem spells_nat {n : Nat} (hn : n < 2 ^ (63 : Nat)) {r : List Char} (hr : follows r = true) :
    Spells (Nat.toDigits 10 n) (.number (.int n ⟨by omega, by omega⟩)) r := by
  have hfits : Fits (n : Int) := ⟨by omega, by omega⟩
  have h := spells_written (Written.proper_toDigits n) hr
  rwa [Written.text_of_whole, Written.toNumeric_toDigits hfits] at h

/-- The source text of a finite number without a sign. -/
theorem spells_float {x : Binary64} (hx : x.isFinite = true) (hneg : x.negative = false)
    {r : List Char} (hr : follows r = true) : Spells x.sourceText (.number (.float x)) r := by
  obtain ⟨w, hw, hnum, htext⟩ := Binary64.sourceText_written hx
  have hmag : x.magnitude = x := by
    cases x
    simp_all [Binary64.magnitude]
  have h := spells_written hw hr
  rwa [hnum, hmag, ← List.nil_append w.text, ← show Decimal.sign x.negative = [] by rw [hneg]; rfl,
    ← htext] at h

/-! ## The lexemes that texts have -/

/-- What every lexeme of a text satisfies: names are names, and numbers have no sign. -/
def Lexeme.Valid : Lexeme → Prop
  | .name s => IsName s
  | .number (.int n _) => 0 ≤ n
  | .number (.float x) => x.negative = false
  | _ => True

theorem readNumeral_negative (cs : List Char) : (Lexeme.readNumeral cs).1.negative = false := by
  unfold Lexeme.readNumeral
  dsimp only
  split <;> rfl

theorem valid_of_numeral {n : Numeral} (h : n.negative = false) :
    (Lexeme.number n.toNumeric).Valid := by
  have hfloat : n.toBinary64.negative = false := by
    rw [Numeral.toBinary64, Decimal.toBinary64_eq_ofRatio]
    exact h
  unfold Numeral.toNumeric Numeric.ofInt
  split
  · split
    · show 0 ≤ n.wholeValue
      simp [Numeral.wholeValue, h]
    · exact hfloat
  · exact hfloat

theorem valid_of_read {c : Char} {cs : List Char} {l : Lexeme} {n : Nat}
    (hblank : isBlank c = false) (h : Lexeme.read c cs = .ok (l, n)) : l.Valid := by
  cases l with
  | name s => exact isName_of_read hblank h
  | number m =>
    unfold Lexeme.read at h
    split at h
    · split at h <;> cases h
    · split at h
      · cases h
        exact valid_of_numeral (readNumeral_negative _)
      · split at h
        · cases h
        · split at h
          · cases h
          · split at h
            · cases h
            · split at h <;> cases h
  | string s => trivial
  | operator s => trivial
  | punctuation p => trivial

theorem Lexed.valid {cs : List Char} {ls : List Lexeme} (h : Lexed cs ls) :
    ∀ l ∈ ls, l.Valid := by
  induction h with
  | nil => simp
  | blank _ _ ih => exact ih
  | lexeme hblank hread _ ih =>
    intro l hl
    rcases List.mem_cons.mp hl with rfl | hl
    · exact valid_of_read hblank hread
    · exact ih l hl

end Criteria
