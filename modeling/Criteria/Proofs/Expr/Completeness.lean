import Criteria.Proofs.Expr.Reader

/-!
# The reader finds what the grammar derives

A phrase that the grammar derives is read as it was derived where there is room enough.
Where there is not, reading ends with the complaint about nesting and with no other.
-/

namespace Criteria.Expr

/-- The lexemes of tokens. -/
abbrev lexemesOf (ts : List Token) : List Lexeme := ts.map Token.lexeme

theorem lexemesOf_eq_cons {ts : List Token} {l : Lexeme} {ls : List Lexeme}
    (h : lexemesOf ts = l :: ls) :
    ∃ position rest, ts = ⟨l, position⟩ :: rest ∧ lexemesOf rest = ls := by
  obtain ⟨t, rest, rfl, rfl, rfl⟩ := List.map_eq_cons_iff.mp h
  exact ⟨t.position, rest, rfl, rfl⟩

theorem nextIs_eq_true {p : Punctuation} {ts : List Token} :
    nextIs p ts = true ↔ StartsWith p (lexemesOf ts) := by
  cases ts <;> simp [nextIs, StartsWith]

theorem nextIs_eq_false {p : Punctuation} {ts : List Token} :
    nextIs p ts = false ↔ ¬ StartsWith p (lexemesOf ts) := by
  rw [← nextIs_eq_true, Bool.not_eq_true]

theorem startsWith_cons {p : Punctuation} {l : Lexeme} {ls : List Lexeme} :
    StartsWith p (l :: ls) ↔ l = .punctuation p := by
  simp [StartsWith]

theorem not_startsWith_key {l : Lexeme} {k : String} (hk : key? l = some k) {p : Punctuation}
    {ls : List Lexeme} : ¬ StartsWith p (l :: ls) := by
  rintro h
  cases startsWith_cons.mp h
  cases hk

theorem not_trailing {close : Punctuation} {trailing : Bool} {ts : List Token} {ls : List Lexeme}
    (hts : lexemesOf ts = ls) (h : ¬ (trailing = true ∧ StartsWith close ls)) :
    (trailing && nextIs close ts) = false := by
  rw [← hts, ← nextIs_eq_true] at h
  simpa using h

/-- The lexemes that a phrase takes at least. -/
def Phrase.least : Phrase → Nat
  | .expression _ | .primary | .elements .. | .entries _ => 1
  | .accesses _ | .operators _ _ | .choices _ => 0

theorem filter_of_startsWithOperator {p : Nat} {s : Spelling} {op : BinaryOp}
    (hs : BinaryOp.ofSpelling? s = some op) (hp : p ≤ op.precedence) :
    (BinaryOp.ofSpelling? s).filter (p ≤ ·.precedence) = some op := by
  simp [hs, hp]

theorem filter_of_not_startsWithOperator {p : Nat} {ts : List Token}
    (h : ¬ StartsWithOperator p (lexemesOf ts)) (s : Spelling) (place : Nat) (rest : List Token)
    (hts : ts = ⟨.operator s, place⟩ :: rest) :
    (BinaryOp.ofSpelling? s).filter (p ≤ ·.precedence) = none := by
  subst hts
  rcases hs : BinaryOp.ofSpelling? s with _ | op
  · rfl
  · have hp : ¬ p ≤ op.precedence := fun hp => h ⟨s, op, rfl, hs, hp⟩
    simpa using hp

theorem nextIs_comma {close : Punctuation} (hc : close ≠ .comma) {position : Nat}
    {ts : List Token} : nextIs close (⟨.punctuation .comma, position⟩ :: ts) = false := by
  simpa [nextIs] using hc.symm

theorem eq_zero_of_lt_level {op : BinaryOp} {room : Nat} (h : room < level op) :
    room = 0 ∧ op.isLogical = false := by
  unfold level at h
  split at h
  · omega
  · next hl => exact ⟨by omega, by simpa using hl⟩

/-- What a reading gives: something with `P` if `enough`, and the complaint about nesting
otherwise. -/
structure Yields {α : Type} (out : Except Refusal α) (enough : Prop) (P : α → Prop) : Prop where
  found : enough → ∃ a, out = .ok a ∧ P a
  tooDeep : ¬ enough → ∃ position, out = .error (.fault .tooDeep position)

namespace Yields

variable {α β : Type} {out : Except Refusal α} {enough enough' : Prop} {P : α → Prop}
  {Q : β → Prop}

theorem ok {a : α} (h : P a) (he : enough) : Yields (.ok a) enough P :=
  ⟨fun _ => ⟨a, rfl, h⟩, fun hn => absurd he hn⟩

theorem error {position : Nat} (he : ¬ enough) :
    Yields (.error (.fault .tooDeep position)) enough P :=
  ⟨fun h => absurd h he, fun _ => ⟨position, rfl⟩⟩

theorem congr (h : Yields out enough P) (he : enough ↔ enough') : Yields out enough' P :=
  ⟨fun hn => h.found (he.mpr hn), fun hn => h.tooDeep (mt he.mp hn)⟩

theorem bind {f : α → Except Refusal β} (h : Yields out enough P) (he : enough' → enough)
    (hf : enough → ∀ a, P a → Yields (f a) enough' Q) : Yields (out >>= f) enough' Q := by
  by_cases hn : enough
  · obtain ⟨a, rfl, ha⟩ := h.found hn
    exact hf hn a ha
  · obtain ⟨position, rfl⟩ := h.tooDeep hn
    exact error (mt he hn)

theorem imp {P' : α → Prop} (h : Yields out enough P) (hp : ∀ a, P a → P' a) :
    Yields out enough P' :=
  ⟨fun hn => (h.found hn).imp fun a ha => ⟨ha.1, hp a ha.2⟩, h.tooDeep⟩

end Yields

/-- What reading a phrase gives that is derived to be `v` before `rest`. -/
abbrev Reads (g : Setting) (room : Nat) (phrase : Phrase) (ts : List Token) (v : Expr)
    (rest : List Lexeme) (used need : Nat) : Prop :=
  Yields (run g room phrase ts) (need ≤ room) fun r =>
    r.1 = v ∧ r.2.1 = room - used ∧ lexemesOf r.2.2 = rest

section

variable {g : Setting} {room need used : Nat} {phrase : Phrase} {ts : List Token} {v : Expr}
  {rest : List Lexeme}

/-- A phrase first, and then what is behind it. -/
theorem Reads.andThen {β : Type} {next : Expr × Nat × List Token → Except Refusal β}
    {enough : Prop} {Q : β → Prop} (h : Reads g room phrase ts v rest used need)
    (he : enough → need ≤ room)
    (hnext : need ≤ room → ∀ ts', lexemesOf ts' = rest →
      Yields (next (v, room - used, ts')) enough Q) :
    Yields (run g room phrase ts >>= next) enough Q := by
  refine h.bind he ?_
  rintro hn ⟨_, _, ts'⟩ ⟨rfl, rfl, hts'⟩
  exact hnext hn ts' hts'

/-- A phrase that takes a level before anything else. -/
theorem Reads.level {position : Nat}
    (hzero : run g 0 phrase ts = .error (.fault .tooDeep position)) (hneed : 0 < need)
    (hsucc : ∀ left, Reads g (left + 1) phrase ts v rest used need) :
    Reads g room phrase ts v rest used need := by
  cases room with
  | zero =>
    rw [Reads, hzero]
    exact .error (Nat.not_le.mpr hneed)
  | succ left => exact hsucc left

end

/-! ## One phrase after another -/

/-- Tokens that have the lexemes `ls` are read as `phrase`, which is `v`, before `rest`. -/
def ReadAs (g : Setting) (phrase : Phrase) (ls : List Lexeme) (v : Expr) (rest : List Lexeme)
    (used need : Nat) : Prop :=
  ∀ ⦃room : Nat⦄ ⦃ts : List Token⦄, lexemesOf ts = ls → Reads g room phrase ts v rest used need

namespace ReadAs

variable {g : Setting} {ls ls₁ ls₂ ls₃ : List Lexeme} {e v : Expr} {u u₁ u₂ n n' n₁ n₂ n₃ : Nat}

theorem full {f : Expr} (hu₁ : u₁ ≤ n₁) (hu₂ : u₂ ≤ n₂) (h₁ : ReadAs g .primary ls f ls₁ u₁ n₁)
    (h₂ : ReadAs g (.operators 0 f) ls₁ e ls₂ u₂ n₂) (h₃ : ReadAs g (.choices e) ls₂ v ls₃ 0 n₃) :
    ReadAs g (.expression 0) ls v ls₃ 0 (1 + max n₁ (max (u₁ + n₂) (u₁ + u₂ + n₃))) := by
  intro room ts hts
  refine .level run_expression_zero (by omega) fun room => ?_
  rw [Reads, run_expression]
  refine (h₁ hts).andThen (by omega) fun hn₁ ts₁ hts₁ => ?_
  refine (h₂ hts₁).andThen (by omega) fun hn₂ ts₂ hts₂ => ?_
  refine (h₃ hts₂).andThen (by omega) fun hn₃ ts₃ hts₃ => ?_
  exact .ok ⟨rfl, rfl, hts₃⟩ (by omega)

theorem operand {p : Nat} {f : Expr} (hp : p ≠ 0) (hu₁ : u₁ ≤ n₁)
    (h₁ : ReadAs g .primary ls f ls₁ u₁ n₁) (h₂ : ReadAs g (.operators p f) ls₁ v ls₂ u₂ n₂) :
    ReadAs g (.expression p) ls v ls₂ 0 (1 + max n₁ (u₁ + n₂)) := by
  intro room ts hts
  refine .level run_expression_zero (by omega) fun room => ?_
  rw [Reads, run_expression]
  refine (h₁ hts).andThen (by omega) fun hn₁ ts₁ hts₁ => ?_
  refine (h₂ hts₁).andThen (by omega) fun hn₂ ts₂ hts₂ => ?_
  simp only [if_neg hp]
  exact .ok ⟨rfl, rfl, hts₂⟩ (by omega)

/-! ### Operands -/

theorem unary {s : Spelling} {op : UnaryOp} (hs : UnaryOp.ofSpelling? s = some op)
    (h₁ : ReadAs g (.expression op.precedence) ls e ls₁ 0 n)
    (h₂ : ReadAs g (.accesses (.unary op e)) ls₁ v ls₂ u n') :
    ReadAs g .primary (.operator s :: ls) v ls₂ u (max n n') := by
  intro room ts hts
  obtain ⟨position, ts, rfl, hts'⟩ := lexemesOf_eq_cons hts
  rw [Reads, run_unary hs]
  refine (h₁ hts').andThen (by omega) fun hn₁ ts₁ hts₁ => ?_
  exact (h₂ hts₁).congr (by omega)

theorem group (h₁ : ReadAs g (.expression 0) ls e (.punctuation .closeParen :: ls₁) 0 n)
    (h₂ : ReadAs g (.accesses e) ls₁ v ls₂ u n') :
    ReadAs g .primary (.punctuation .openParen :: ls) v ls₂ u (max n n') := by
  intro room ts hts
  obtain ⟨position, ts, rfl, hts'⟩ := lexemesOf_eq_cons hts
  rw [Reads, run_group]
  refine (h₁ hts').andThen (by omega) fun hn₁ ts₁ hts₁ => ?_
  obtain ⟨place, ts₁, rfl, hts₁'⟩ := lexemesOf_eq_cons hts₁
  exact (h₂ hts₁').congr (by omega)

theorem array {es : List Expr}
    (h₁ : ReadAs g (.elements .closeBracket .arrayComma true true) ls (.array es) ls₁ 0 n)
    (h₂ : ReadAs g (.accesses (.array es)) ls₁ v ls₂ u n') :
    ReadAs g .primary (.punctuation .openBracket :: ls) v ls₂ u (max n n') := by
  intro room ts hts
  obtain ⟨position, ts, rfl, hts'⟩ := lexemesOf_eq_cons hts
  rw [Reads, run_array]
  refine (h₁ hts').andThen (by omega) fun hn₁ ts₁ hts₁ => ?_
  exact (h₂ hts₁).congr (by omega)

theorem hash {es : List (String × Expr)} (h₁ : ReadAs g (.entries true) ls (.hash es) ls₁ 0 n)
    (h₂ : ReadAs g (.accesses (.hash es)) ls₁ v ls₂ u n') :
    ReadAs g .primary (.punctuation .openBrace :: ls) v ls₂ u (max n n') := by
  intro room ts hts
  obtain ⟨position, ts, rfl, hts'⟩ := lexemesOf_eq_cons hts
  rw [Reads, run_hash]
  refine (h₁ hts').andThen (by omega) fun hn₁ ts₁ hts₁ => ?_
  exact (h₂ hts₁).congr (by omega)

theorem constant {l : Lexeme} {c : Value} (hc : constant? l = some c)
    (h : ReadAs g (.accesses (.const c)) ls v ls₁ u n) : ReadAs g .primary (l :: ls) v ls₁ u n := by
  intro room ts hts
  obtain ⟨position, ts, rfl, hts'⟩ := lexemesOf_eq_cons hts
  rw [Reads, run_constant hc]
  exact h hts'

theorem call {s : String} {es : List Expr} (hc : constantWord? s = none) (hk : g.known s = true)
    (h₁ : ReadAs g (.elements .closeParen .argumentComma false true) ls (.array es) ls₁ 0 n)
    (h₂ : ReadAs g (.accesses (.call s es)) ls₁ v ls₂ u n') :
    ReadAs g .primary (.name s :: .punctuation .openParen :: ls) v ls₂ u (max n n') := by
  intro room ts hts
  obtain ⟨position, ts, rfl, hts'⟩ := lexemesOf_eq_cons hts
  obtain ⟨place, ts, rfl, hts''⟩ := lexemesOf_eq_cons hts'
  rw [Reads, run_call hc hk nextIs_cons]
  refine (h₁ hts'').andThen (by omega) fun hn₁ ts₁ hts₁ => ?_
  exact (h₂ hts₁).congr (by omega)

theorem name {s : String} (hc : constantWord? s = none) (hn : ¬ StartsWith .openParen ls)
    (h : ReadAs g (.accesses (.name s)) ls v ls₁ u n) :
    ReadAs g .primary (.name s :: ls) v ls₁ u n := by
  intro room ts hts
  obtain ⟨position, ts, rfl, hts'⟩ := lexemesOf_eq_cons hts
  rw [Reads, run_name hc (nextIs_eq_false.mpr (hts' ▸ hn))]
  exact h hts'

/-! ### Accesses -/

theorem noAccess (hd : ¬ StartsWith .dot ls) (hb : ¬ StartsWith .openBracket ls) :
    ReadAs g (.accesses e) ls e ls 0 0 := by
  intro room ts hts
  subst hts
  rw [Reads, run_noAccess (nextIs_eq_false.mpr hd) (nextIs_eq_false.mpr hb)]
  exact .ok ⟨rfl, rfl, rfl⟩ (Nat.zero_le _)

theorem property {member : String} (hn : ¬ StartsWith .openParen ls)
    (h : ReadAs g (.accesses (.access e (.const (.string member)) .property)) ls v ls₁ u n) :
    ReadAs g (.accesses e) (.punctuation .dot :: .name member :: ls) v ls₁ (1 + u) (1 + n) := by
  intro room ts hts
  obtain ⟨position, ts, rfl, hts'⟩ := lexemesOf_eq_cons hts
  obtain ⟨place, ts, rfl, hts''⟩ := lexemesOf_eq_cons hts'
  refine .level (run_access_zero (.inl nextIs_cons)) (by omega) fun room => ?_
  rw [Reads, run_property (nextIs_eq_false.mpr (hts'' ▸ hn))]
  exact ((h hts'').congr (by omega)).imp (by grind)

theorem index {key : Expr}
    (h₁ : ReadAs g (.expression 0) ls key (.punctuation .closeBracket :: ls₁) 0 n)
    (h₂ : ReadAs g (.accesses (.access e key .index)) ls₁ v ls₂ u n') :
    ReadAs g (.accesses e) (.punctuation .openBracket :: ls) v ls₂ (1 + u) (1 + max n n') := by
  intro room ts hts
  obtain ⟨position, ts, rfl, hts'⟩ := lexemesOf_eq_cons hts
  refine .level (run_access_zero (.inr nextIs_cons)) (by omega) fun room => ?_
  rw [Reads, run_index]
  refine (h₁ hts').andThen (by omega) fun hn₁ ts₁ hts₁ => ?_
  obtain ⟨place, ts₁, rfl, hts₁'⟩ := lexemesOf_eq_cons hts₁
  exact ((h₂ hts₁').congr (by omega)).imp (by grind)

/-! ### Operators and choices -/

theorem noOperator {p : Nat} (h : ¬ StartsWithOperator p ls) :
    ReadAs g (.operators p e) ls e ls 0 0 := by
  intro room ts hts
  subst hts
  rw [Reads, run_noOperator (filter_of_not_startsWithOperator h)]
  exact .ok ⟨rfl, rfl, rfl⟩ (Nat.zero_le _)

theorem operator {p : Nat} {s : Spelling} {op : BinaryOp} {right : Expr}
    (hs : BinaryOp.ofSpelling? s = some op) (hp : p ≤ op.precedence)
    (h₁ : ReadAs g (.expression op.rightPrecedence) ls right ls₁ 0 n)
    (h₂ : ReadAs g (.operators p (join op e right)) ls₁ v ls₂ u n') :
    ReadAs g (.operators p e) (.operator s :: ls) v ls₂ (level op + u)
      (level op + max n n') := by
  intro room ts hts
  obtain ⟨position, ts, rfl, hts'⟩ := lexemesOf_eq_cons hts
  have hf := filter_of_startsWithOperator hs hp
  by_cases hlevel : room < level op
  · obtain ⟨rfl, hl⟩ := eq_zero_of_lt_level hlevel
    rw [Reads, run_operator_zero hf hl]
    exact .error (by omega)
  · obtain ⟨room, rfl⟩ := Nat.exists_eq_add_of_le (Nat.le_of_not_lt hlevel)
    rw [Reads, run_operator hf]
    refine (h₁ hts').andThen (by omega) fun hn₁ ts₁ hts₁ => ?_
    exact ((h₂ hts₁).congr (by omega)).imp (by grind)

theorem noChoice (h : ¬ StartsWith .question ls) : ReadAs g (.choices e) ls e ls 0 0 := by
  intro room ts hts
  subst hts
  rw [Reads, run_noChoice (nextIs_eq_false.mpr h)]
  exact .ok ⟨rfl, rfl, rfl⟩ (Nat.zero_le _)

theorem shortChoice {no : Expr} (h₁ : ReadAs g (.expression 0) ls no ls₁ 0 n)
    (h₂ : ReadAs g (.choices (.conditional e e no)) ls₁ v ls₂ 0 n') :
    ReadAs g (.choices e) (.punctuation .question :: .punctuation .colon :: ls) v ls₂ 0
      (1 + max n n') := by
  intro room ts hts
  obtain ⟨position, ts, rfl, hts'⟩ := lexemesOf_eq_cons hts
  obtain ⟨place, ts, rfl, hts''⟩ := lexemesOf_eq_cons hts'
  refine .level run_choice_zero (by omega) fun room => ?_
  rw [Reads, run_shortChoice]
  refine (h₁ hts'').andThen (by omega) fun hn₁ ts₁ hts₁ => ?_
  refine (h₂ hts₁).andThen (by omega) fun hn₂ ts₂ hts₂ => ?_
  exact .ok ⟨rfl, rfl, hts₂⟩ (by omega)

theorem choice {yes no : Expr} (hc : ¬ StartsWith .colon ls)
    (h₁ : ReadAs g (.expression 0) ls yes (.punctuation .colon :: ls₁) 0 n₁)
    (h₂ : ReadAs g (.expression 0) ls₁ no ls₂ 0 n₂)
    (h₃ : ReadAs g (.choices (.conditional e yes no)) ls₂ v ls₃ 0 n₃) :
    ReadAs g (.choices e) (.punctuation .question :: ls) v ls₃ 0 (1 + max n₁ (max n₂ n₃)) := by
  intro room ts hts
  obtain ⟨position, ts, rfl, hts'⟩ := lexemesOf_eq_cons hts
  refine .level run_choice_zero (by omega) fun room => ?_
  rw [Reads, run_choice (nextIs_eq_false.mpr (hts' ▸ hc))]
  refine (h₁ hts').andThen (by omega) fun hn₁ ts₁ hts₁ => ?_
  obtain ⟨place, ts₁, rfl, hts₁'⟩ := lexemesOf_eq_cons hts₁
  simp only [nextIs_cons, if_true]
  refine (h₂ hts₁').andThen (by omega) fun hn₂ ts₂ hts₂ => ?_
  refine (h₃ hts₂).andThen (by omega) fun hn₃ ts₃ hts₃ => ?_
  exact .ok ⟨rfl, rfl, hts₃⟩ (by omega)

theorem openChoice {yes : Expr} (hc : ¬ StartsWith .colon ls)
    (h₁ : ReadAs g (.expression 0) ls yes ls₁ 0 n) (hn : ¬ StartsWith .colon ls₁)
    (h₂ : ReadAs g (.choices (.conditional e yes (.const .null))) ls₁ v ls₂ 0 n') :
    ReadAs g (.choices e) (.punctuation .question :: ls) v ls₂ 0 (1 + max n n') := by
  intro room ts hts
  obtain ⟨position, ts, rfl, hts'⟩ := lexemesOf_eq_cons hts
  refine .level run_choice_zero (by omega) fun room => ?_
  rw [Reads, run_choice (nextIs_eq_false.mpr (hts' ▸ hc))]
  refine (h₁ hts').andThen (by omega) fun hn₁ ts₁ hts₁ => ?_
  simp only [nextIs_eq_false.mpr (hts₁ ▸ hn), Bool.false_eq_true, if_false]
  refine (h₂ hts₁).andThen (by omega) fun hn₂ ts₂ hts₂ => ?_
  exact .ok ⟨rfl, rfl, hts₂⟩ (by omega)

/-! ### What is listed in brackets -/

section

variable {close : Punctuation} {comma : Requirement} {trailing first : Bool} {es : List Expr}

theorem noElements :
    ReadAs g (.elements close comma trailing first) (.punctuation close :: ls) (.array []) ls
      0 0 := by
  intro room ts hts
  obtain ⟨position, ts, rfl, hts'⟩ := lexemesOf_eq_cons hts
  rw [Reads, run_noElements nextIs_cons]
  exact .ok ⟨rfl, rfl, hts'⟩ (Nat.zero_le _)

theorem firstElement (hn : ¬ StartsWith close ls) (h₁ : ReadAs g (.expression 0) ls e ls₁ 0 n)
    (h₂ : ReadAs g (.elements close comma trailing false) ls₁ (.array es) ls₂ 0 n') :
    ReadAs g (.elements close comma trailing true) ls (.array (e :: es)) ls₂ 0 (max n n') := by
  intro room ts hts
  rw [Reads, run_firstElement (nextIs_eq_false.mpr (hts ▸ hn))]
  refine (h₁ hts).andThen (by omega) fun hn₁ ts₁ hts₁ => ?_
  refine (h₂ hts₁).andThen (by omega) fun hn₂ ts₂ hts₂ => ?_
  exact .ok ⟨rfl, rfl, hts₂⟩ (by omega)

theorem lastComma (hc : close ≠ .comma) :
    ReadAs g (.elements close comma true false) (.punctuation .comma :: .punctuation close :: ls)
      (.array []) ls 0 0 := by
  intro room ts hts
  obtain ⟨position, ts, rfl, hts'⟩ := lexemesOf_eq_cons hts
  obtain ⟨place, ts, rfl, hts''⟩ := lexemesOf_eq_cons hts'
  rw [Reads, run_element (nextIs_comma hc), skip_cons]
  simp only [bind, Except.bind, nextIs_cons, Bool.and_self, if_true]
  exact .ok ⟨rfl, rfl, hts''⟩ (Nat.zero_le _)

theorem element (hc : close ≠ .comma) (ht : ¬ (trailing = true ∧ StartsWith close ls))
    (h₁ : ReadAs g (.expression 0) ls e ls₁ 0 n)
    (h₂ : ReadAs g (.elements close comma trailing false) ls₁ (.array es) ls₂ 0 n') :
    ReadAs g (.elements close comma trailing false) (.punctuation .comma :: ls)
      (.array (e :: es)) ls₂ 0 (max n n') := by
  intro room ts hts
  obtain ⟨position, ts, rfl, hts'⟩ := lexemesOf_eq_cons hts
  rw [Reads, run_element (nextIs_comma hc), skip_cons]
  simp only [bind, Except.bind, not_trailing hts' ht, Bool.false_eq_true, if_false]
  refine (h₁ hts').andThen (by omega) fun hn₁ ts₁ hts₁ => ?_
  refine (h₂ hts₁).andThen (by omega) fun hn₂ ts₂ hts₂ => ?_
  exact .ok ⟨rfl, rfl, hts₂⟩ (by omega)

end

section

variable {l : Lexeme} {k : String} {first : Bool} {es : List (String × Expr)}

theorem noEntries :
    ReadAs g (.entries first) (.punctuation .closeBrace :: ls) (.hash []) ls 0 0 := by
  intro room ts hts
  obtain ⟨position, ts, rfl, hts'⟩ := lexemesOf_eq_cons hts
  rw [Reads, run_noEntries nextIs_cons]
  exact .ok ⟨rfl, rfl, hts'⟩ (Nat.zero_le _)

theorem firstEntry (hk : key? l = some k) (h₁ : ReadAs g (.expression 0) ls e ls₁ 0 n)
    (h₂ : ReadAs g (.entries false) ls₁ (.hash es) ls₂ 0 n') :
    ReadAs g (.entries true) (l :: .punctuation .colon :: ls) (.hash ((k, e) :: es)) ls₂ 0
      (max n n') := by
  intro room ts hts
  have hn : nextIs .closeBrace ts = false := nextIs_eq_false.mpr (hts ▸ not_startsWith_key hk)
  obtain ⟨position, ts, rfl, hts'⟩ := lexemesOf_eq_cons hts
  obtain ⟨place, ts, rfl, hts''⟩ := lexemesOf_eq_cons hts'
  rw [Reads, run_firstEntry hn, keyed_of_key? hk nextIs_cons]
  refine (h₁ hts'').andThen (by omega) fun hn₁ ts₁ hts₁ => ?_
  refine (h₂ hts₁).andThen (by omega) fun hn₂ ts₂ hts₂ => ?_
  exact .ok ⟨rfl, rfl, hts₂⟩ (by omega)

theorem lastEntryComma :
    ReadAs g (.entries false) (.punctuation .comma :: .punctuation .closeBrace :: ls) (.hash []) ls
      0 0 := by
  intro room ts hts
  obtain ⟨position, ts, rfl, hts'⟩ := lexemesOf_eq_cons hts
  obtain ⟨place, ts, rfl, hts''⟩ := lexemesOf_eq_cons hts'
  rw [Reads, run_entry rfl, skip_cons]
  simp only [bind, Except.bind, nextIs_cons, if_true]
  exact .ok ⟨rfl, rfl, hts''⟩ (Nat.zero_le _)

theorem entry (hk : key? l = some k) (h₁ : ReadAs g (.expression 0) ls e ls₁ 0 n)
    (h₂ : ReadAs g (.entries false) ls₁ (.hash es) ls₂ 0 n') :
    ReadAs g (.entries false) (.punctuation .comma :: l :: .punctuation .colon :: ls)
      (.hash ((k, e) :: es)) ls₂ 0 (max n n') := by
  intro room ts hts
  obtain ⟨position, ts, rfl, hts'⟩ := lexemesOf_eq_cons hts
  have hn : nextIs .closeBrace ts = false := nextIs_eq_false.mpr (hts' ▸ not_startsWith_key hk)
  obtain ⟨place, ts, rfl, hts''⟩ := lexemesOf_eq_cons hts'
  obtain ⟨colon, ts, rfl, htsc⟩ := lexemesOf_eq_cons hts''
  rw [Reads, run_entry rfl, skip_cons]
  simp only [bind, Except.bind, hn, Bool.false_eq_true, if_false,
    keyed_of_key? hk nextIs_cons]
  refine (h₁ htsc).andThen (by omega) fun hn₁ ts₁ hts₁ => ?_
  refine (h₂ hts₁).andThen (by omega) fun hn₂ ts₂ hts₂ => ?_
  exact .ok ⟨rfl, rfl, hts₂⟩ (by omega)

end

end ReadAs

/-! ## What is derived -/

namespace Derives

variable {phrase : Phrase} {ls rest : List Lexeme} {v : Expr} {used need : Nat}

theorem length_le {known : String → Bool} (h : Derives known phrase ls v rest used need) :
    rest.length + phrase.least ≤ ls.length := by
  induction h <;> simp only [Phrase.least, List.length_cons] at * <;> omega

theorem reads {g : Setting} (h : Derives g.known phrase ls v rest used need) :
    ReadAs g phrase ls v rest used need := by
  induction h with
  | full h₁ h₂ _ ih₁ ih₂ ih₃ => exact .full h₁.used_le h₂.used_le ih₁ ih₂ ih₃
  | operand hp h₁ _ ih₁ ih₂ => exact .operand hp h₁.used_le ih₁ ih₂
  | unary hs _ _ ih₁ ih₂ => exact .unary hs ih₁ ih₂
  | group _ _ ih₁ ih₂ => exact .group ih₁ ih₂
  | array _ _ ih₁ ih₂ => exact .array ih₁ ih₂
  | hash _ _ ih₁ ih₂ => exact .hash ih₁ ih₂
  | constant hc _ ih => exact .constant hc ih
  | call hc hk _ _ ih₁ ih₂ => exact .call hc hk ih₁ ih₂
  | name hc hn _ ih => exact .name hc hn ih
  | noAccess hd hb => exact .noAccess hd hb
  | property hn _ ih => exact .property hn ih
  | index _ _ ih₁ ih₂ => exact .index ih₁ ih₂
  | noOperator h => exact .noOperator h
  | operator hs hp _ _ ih₁ ih₂ => exact .operator hs hp ih₁ ih₂
  | noChoice h => exact .noChoice h
  | shortChoice _ _ ih₁ ih₂ => exact .shortChoice ih₁ ih₂
  | choice hc _ _ _ ih₁ ih₂ ih₃ => exact .choice hc ih₁ ih₂ ih₃
  | openChoice hc _ hn _ ih₁ ih₂ => exact .openChoice hc ih₁ hn ih₂
  | noElements => exact .noElements
  | firstElement hn _ _ ih₁ ih₂ => exact .firstElement hn ih₁ ih₂
  | lastComma hc => exact .lastComma hc
  | element hc ht _ _ ih₁ ih₂ => exact .element hc ht ih₁ ih₂
  | noEntries => exact .noEntries
  | firstEntry hk _ _ ih₁ ih₂ => exact .firstEntry hk ih₁ ih₂
  | lastEntryComma => exact .lastEntryComma
  | entry hk _ _ ih₁ ih₂ => exact .entry hk ih₁ ih₂

/-- From given lexemes a phrase is derived in one way only. -/
theorem unique {known : String → Bool} {rest' : List Lexeme} {v' : Expr} {used' need' : Nat}
    (d : Derives known phrase ls v rest used need)
    (d' : Derives known phrase ls v' rest' used' need') : v = v' ∧ rest = rest' := by
  obtain ⟨g, hg⟩ : ∃ g : Setting, g.known = known := ⟨⟨known, 0⟩, rfl⟩
  subst hg
  obtain ⟨ts, hts⟩ : ∃ ts, lexemesOf ts = ls := ⟨ls.map (⟨·, 0⟩), by simp [Function.comp_def]⟩
  obtain ⟨r, hr, hv, -, hrest⟩ := (d.reads hts).found (Nat.le_max_left need need')
  obtain ⟨r', hr', hv', -, hrest'⟩ := (d'.reads hts).found (Nat.le_max_right need need')
  obtain rfl : r = r' := Except.ok.inj (hr.symm.trans hr')
  exact ⟨hv.symm.trans hv', hrest.symm.trans hrest'⟩

end Derives

end Criteria.Expr
