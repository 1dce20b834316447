import Criteria.Proofs.Expr.Grammar

/-!
# The reader, one step at a time

The functions of the reader return what is left together with a bound on its length,
and are written by recursion on that length. `run` is all of them as one function of the
phrase, without the bounds. Its equations say what the reader does with each phrase for
each kind of token that can come first; nothing else about the functions is used later.
-/

namespace Criteria.Expr

/-- The expression read, the room left, and the tokens behind. -/
abbrev Outcome := Except Refusal (Expr × Nat × List Token)

/-- Reads a phrase. -/
def run (g : Setting) (room : Nat) : Phrase → List Token → Outcome
  | .expression p, ts => (expression g room p ts).map fun r => (r.value, room, r.rest)
  | .primary, ts => (primary g room ts).map fun r => (r.value.1, r.value.2, r.rest)
  | .accesses e, ts => (accesses g room e ts).map fun r => (r.value.1, r.value.2, r.rest)
  | .operators p e, ts => (operators g room p e ts).map fun r => (r.value.1, r.value.2, r.rest)
  | .choices e, ts => (choices g room e ts).map fun r => (r.value, room, r.rest)
  | .elements close comma trailing first, ts =>
    (elements g room close comma trailing first ts).map fun r => (.array r.value, room, r.rest)
  | .entries first, ts => (entries g room first ts).map fun r => (.hash r.value, room, r.rest)

/-- The call of `s` with the elements of an array as its arguments. -/
def callWith (s : String) : Expr → Expr
  | .array es => .call s es
  | e => e

/-- An array with another element in front. -/
def withElement (e : Expr) : Expr → Expr
  | .array es => .array (e :: es)
  | v => v

/-- A hash with another entry in front. -/
def withEntry (entry : String × Expr) : Expr → Expr
  | .hash es => .hash (entry :: es)
  | v => v

/-- The tokens behind the punctuation `p`. -/
def skip (g : Setting) (p : Punctuation) (requirement : Requirement) (ts : List Token) :
    Except Refusal (List Token) :=
  (g.expect p requirement ts).map (·.rest)

variable {g : Setting} {room position : Nat} {ts : List Token} {e : Expr}

@[simp] theorem nextIs_cons {p : Punctuation} :
    nextIs p (⟨.punctuation p, position⟩ :: ts) = true := by
  simp [nextIs]

@[simp] theorem skip_cons {p : Punctuation} {requirement : Requirement} :
    skip g p requirement (⟨.punctuation p, position⟩ :: ts) = .ok ts := by
  simp [skip, Setting.expect, Except.map]

theorem skip_of_nextIs {p : Punctuation} {requirement : Requirement} (h : nextIs p ts = true) :
    skip g p requirement ts = .ok (ts.drop 1) := by
  cases ts with
  | nil => simp [nextIs] at h
  | cons t ts =>
    have ht : t.lexeme = .punctuation p := by simpa [nextIs] using h
    simp [skip, Setting.expect, ht, Except.map]

theorem skip_of_not_nextIs {p : Punctuation} {requirement : Requirement}
    (h : nextIs p ts = false) :
    skip g p requirement ts =
      g.refuse (.missing requirement (ts.head?.map Token.lexeme)) ts := by
  cases ts with
  | nil => rfl
  | cons t ts =>
    have ht : t.lexeme ≠ .punctuation p := by simpa [nextIs] using h
    simp [skip, Setting.expect, ht, Setting.refuse, Except.map]

theorem exists_of_nextIs {p : Punctuation} (h : nextIs p ts = true) :
    ∃ place rest, ts = ⟨.punctuation p, place⟩ :: rest := by
  cases ts with
  | nil => simp [nextIs] at h
  | cons t rest =>
    obtain ⟨l, place⟩ := t
    obtain rfl : l = .punctuation p := by simpa [nextIs] using h
    exact ⟨place, rest, rfl⟩

theorem skip_eq_ok {p : Punctuation} {requirement : Requirement} {rest : List Token}
    (h : skip g p requirement ts = .ok rest) :
    ∃ place, ts = ⟨.punctuation p, place⟩ :: rest := by
  cases ts with
  | nil => simp [skip, Setting.expect, Setting.refuse, Except.map] at h
  | cons t ts =>
    obtain ⟨l, place⟩ := t
    by_cases ht : l = .punctuation p
    · subst ht
      simp only [skip_cons, Except.ok.injEq] at h
      exact ⟨place, by rw [h]⟩
    · simp [skip, Setting.expect, ht, Setting.refuse, Except.map] at h

/-! ## Expressions -/

theorem run_expression_zero {p : Nat} :
    run g 0 (.expression p) ts = g.refuse .tooDeep ts := by
  simp only [run]
  rw [expression]
  rfl

theorem run_expression {p : Nat} :
    run g (room + 1) (.expression p) ts = (do
      let (first, left, rest) ← run g room .primary ts
      let (e, left, rest) ← run g left (.operators p first) rest
      if p = 0 then
        let (e, _, rest) ← run g left (.choices e) rest
        return (e, room + 1, rest)
      else return (e, room + 1, rest)) := by
  simp only [run]
  rw [expression]
  rcases primary g room ts with _ | ⟨⟨first, left⟩, rest, h⟩
  · rfl
  simp only [Except.map, bind, Except.bind]
  rcases operators g left p first rest with _ | ⟨⟨e, left⟩, rest, h⟩
  · rfl
  by_cases hp : p = 0
  · simp only [hp, if_true]
    rcases choices g left e rest with _ | ⟨e, rest, h⟩ <;> rfl
  · simp only [hp, if_false]
    rfl

/-! ## Operands -/

theorem run_nothing : run g room .primary [] = g.refuse (.unexpected none) [] := by
  simp only [run]
  rw [primary]
  rfl

theorem run_unary {s : Spelling} {op : UnaryOp} (h : UnaryOp.ofSpelling? s = some op) :
    run g room .primary (⟨.operator s, position⟩ :: ts) = (do
      let (e, _, rest) ← run g room (.expression op.precedence) ts
      run g room (.accesses (.unary op e)) rest) := by
  simp only [run]
  rw [primary.eq_def]
  simp only [h, Except.map, bind, Except.bind]
  rcases expression g room op.precedence ts with _ | ⟨e, rest, h⟩
  · rfl
  simp only []
  rcases accesses g room (.unary op e) rest with _ | r <;> rfl

theorem run_notUnary {s : Spelling} (h : UnaryOp.ofSpelling? s = none) :
    run g room .primary (⟨.operator s, position⟩ :: ts) =
      .error (.fault (.unexpected (some (.operator s))) position) := by
  simp only [run]
  rw [primary.eq_def]
  simp only [h, Except.map]

theorem run_group :
    run g room .primary (⟨.punctuation .openParen, position⟩ :: ts) = (do
      let (e, _, rest) ← run g room (.expression 0) ts
      let rest ← skip g .closeParen .closingParen rest
      run g room (.accesses e) rest) := by
  simp only [run]
  rw [primary.eq_def]
  simp only [Except.map, bind, Except.bind, skip]
  rcases expression g room 0 ts with _ | ⟨e, rest, h⟩
  · rfl
  simp only []
  rcases g.expect .closeParen .closingParen rest with _ | ⟨_, rest, h⟩
  · rfl
  simp only []
  rcases accesses g room e rest with _ | r <;> rfl

theorem run_array :
    run g room .primary (⟨.punctuation .openBracket, position⟩ :: ts) = (do
      let (e, _, rest) ← run g room (.elements .closeBracket .arrayComma true true) ts
      run g room (.accesses e) rest) := by
  simp only [run]
  rw [primary.eq_def]
  simp only [Except.map, bind, Except.bind]
  rcases elements g room .closeBracket .arrayComma true true ts with _ | ⟨es, rest, h⟩
  · rfl
  simp only []
  rcases accesses g room (.array es) rest with _ | r <;> rfl

theorem run_hash :
    run g room .primary (⟨.punctuation .openBrace, position⟩ :: ts) = (do
      let (e, _, rest) ← run g room (.entries true) ts
      run g room (.accesses e) rest) := by
  simp only [run]
  rw [primary.eq_def]
  simp only [Except.map, bind, Except.bind]
  rcases entries g room true ts with _ | ⟨es, rest, h⟩
  · rfl
  simp only []
  rcases accesses g room (.hash es) rest with _ | r <;> rfl

theorem run_punctuation {p : Punctuation} (h₁ : p ≠ .openParen) (h₂ : p ≠ .openBracket)
    (h₃ : p ≠ .openBrace) :
    run g room .primary (⟨.punctuation p, position⟩ :: ts) =
      .error (.fault (.unexpected (some (.punctuation p))) position) := by
  simp only [run]
  rw [primary.eq_def]
  cases p <;> first | rfl | contradiction

theorem run_constant {l : Lexeme} {c : Value} (h : constant? l = some c) :
    run g room .primary (⟨l, position⟩ :: ts) = run g room (.accesses (.const c)) ts := by
  simp only [run]
  rw [primary.eq_def]
  cases l with
  | number n =>
    cases h
    simp only []
    rcases accesses g room (.const n.toValue) ts with _ | r <;> rfl
  | string s =>
    cases h
    simp only []
    rcases accesses g room (.const (.string s)) ts with _ | r <;> rfl
  | name s =>
    simp only [constant?] at h
    simp only [h]
    rcases accesses g room (.const c) ts with _ | r <;> rfl
  | operator s => cases h
  | punctuation p => cases h

theorem run_call {s : String} (hc : constantWord? s = none) (hk : g.known s = true)
    (hn : nextIs .openParen ts = true) :
    run g room .primary (⟨.name s, position⟩ :: ts) = (do
      let (e, _, rest) ← run g room (.elements .closeParen .argumentComma false true) (ts.drop 1)
      run g room (.accesses (callWith s e)) rest) := by
  simp only [run]
  rw [primary.eq_def]
  simp only [hc, hk, hn, if_true]
  rcases elements g room .closeParen .argumentComma false true (ts.drop 1) with _ | ⟨es, rest, h⟩
  · rfl
  simp only [Except.map, bind, Except.bind, callWith]
  rcases accesses g room (.call s es) rest with _ | r <;> rfl

theorem run_unknown {s : String} (hc : constantWord? s = none) (hk : g.known s = false)
    (hn : nextIs .openParen ts = true) :
    run g room .primary (⟨.name s, position⟩ :: ts) = .error (.unknownFunction s) := by
  simp only [run]
  rw [primary.eq_def]
  simp [hc, hk, hn, Except.map]

theorem run_name {s : String} (hc : constantWord? s = none) (hn : nextIs .openParen ts = false) :
    run g room .primary (⟨.name s, position⟩ :: ts) = run g room (.accesses (.name s)) ts := by
  simp only [run]
  rw [primary.eq_def]
  simp only [hc, hn]
  rcases accesses g room (.name s) ts with _ | r <;> rfl

/-! ## Member accesses -/

theorem run_noAccess (hd : nextIs .dot ts = false) (hb : nextIs .openBracket ts = false) :
    run g room (.accesses e) ts = .ok (e, room, ts) := by
  simp only [run]
  rw [accesses.eq_def]
  split
  · simp [nextIs] at hd
  · simp [nextIs] at hb
  · rfl

theorem run_access_zero (h : nextIs .dot ts = true ∨ nextIs .openBracket ts = true) :
    run g 0 (.accesses e) ts = g.refuse .tooDeep ts := by
  simp only [run]
  rw [accesses.eq_def]
  split
  · rfl
  · rfl
  · next hd hb =>
    cases ts with
    | nil => simp [nextIs] at h
    | cons t ts =>
      obtain ⟨l, position⟩ := t
      simp only [nextIs, beq_iff_eq] at h
      rcases h with rfl | rfl
      · exact absurd rfl (hd _ _)
      · exact absurd rfl (hb _ _)

theorem run_property {member : String} {place : Nat} (hn : nextIs .openParen ts = false) :
    run g (room + 1) (.accesses e)
        (⟨.punctuation .dot, position⟩ :: ⟨.name member, place⟩ :: ts) =
      run g room (.accesses (.access e (.const (.string member)) .property)) ts := by
  simp only [run]
  rw [accesses.eq_def]
  simp only [hn]
  rcases accesses g room (.access e (.const (.string member)) .property) ts with _ | r <;> rfl

theorem run_method {member : String} {place : Nat} (hn : nextIs .openParen ts = true) :
    run g (room + 1) (.accesses e)
        (⟨.punctuation .dot, position⟩ :: ⟨.name member, place⟩ :: ts) =
      g.refuse (.methodCall member) ts := by
  simp only [run]
  rw [accesses.eq_def]
  simp only [hn, if_true]
  rfl

theorem run_noMember (hm : ∀ member place rest, ts ≠ ⟨.name member, place⟩ :: rest) :
    run g (room + 1) (.accesses e) (⟨.punctuation .dot, position⟩ :: ts) =
      g.refuse .missingMember ts := by
  simp only [run]
  rw [accesses.eq_def]
  simp only []
  rfl

theorem run_index :
    run g (room + 1) (.accesses e) (⟨.punctuation .openBracket, position⟩ :: ts) = (do
      let (key, _, rest) ← run g room (.expression 0) ts
      let rest ← skip g .closeBracket .closingIndex rest
      run g room (.accesses (.access e key .index)) rest) := by
  simp only [run]
  rw [accesses.eq_def]
  simp only [Except.map, bind, Except.bind, skip]
  rcases expression g room 0 ts with _ | ⟨key, rest, h⟩
  · rfl
  simp only []
  rcases g.expect .closeBracket .closingIndex rest with _ | ⟨_, rest, h⟩
  · rfl
  simp only []
  rcases accesses g room (.access e key .index) rest with _ | r <;> rfl

/-! ## Operators -/

theorem run_noOperator {p : Nat}
    (h : ∀ s place rest, ts = ⟨.operator s, place⟩ :: rest →
      (BinaryOp.ofSpelling? s).filter (p ≤ ·.precedence) = none) :
    run g room (.operators p e) ts = .ok (e, room, ts) := by
  simp only [run]
  rw [operators.eq_def]
  split
  · next s place rest =>
    simp only [h s place rest rfl]
    rfl
  · rfl

theorem run_operator_zero {p : Nat} {s : Spelling} {op : BinaryOp}
    (hs : (BinaryOp.ofSpelling? s).filter (p ≤ ·.precedence) = some op)
    (hl : op.isLogical = false) :
    run g 0 (.operators p e) (⟨.operator s, position⟩ :: ts) =
      g.refuse .tooDeep (⟨.operator s, position⟩ :: ts) := by
  simp only [run]
  rw [operators.eq_def]
  simp only [hs, hl, and_self, if_true]
  rfl

theorem run_operator {p : Nat} {s : Spelling} {op : BinaryOp}
    (hs : (BinaryOp.ofSpelling? s).filter (p ≤ ·.precedence) = some op) :
    run g (level op + room) (.operators p e) (⟨.operator s, position⟩ :: ts) = (do
      let (right, _, rest) ← run g room (.expression op.rightPrecedence) ts
      run g room (.operators p (join op e right)) rest) := by
  have hroom : (if op.isLogical then level op + room else level op + room - 1) = room := by
    unfold level
    split <;> omega
  have hnot : ¬ (op.isLogical = false ∧ level op + room = 0) := by
    rintro ⟨hl, h⟩
    simp [level, hl] at h
  simp only [run]
  rw [operators.eq_def]
  simp only [hs, if_neg hnot, hroom, Except.map, bind, Except.bind]
  rcases expression g room op.rightPrecedence ts with _ | ⟨right, rest, h⟩
  · rfl
  simp only []
  rcases operators g room p (join op e right) rest with _ | r <;> rfl

/-! ## Choices -/

theorem run_noChoice (h : nextIs .question ts = false) :
    run g room (.choices e) ts = .ok (e, room, ts) := by
  simp only [run]
  rw [choices.eq_def]
  split
  · simp [nextIs] at h
  · rfl

theorem run_choice_zero :
    run g 0 (.choices e) (⟨.punctuation .question, position⟩ :: ts) =
      .error (.fault .tooDeep position) := by
  simp only [run]
  rw [choices.eq_def]
  rfl

theorem run_shortChoice {place : Nat} :
    run g (room + 1) (.choices e)
        (⟨.punctuation .question, position⟩ :: ⟨.punctuation .colon, place⟩ :: ts) = (do
      let (no, _, rest) ← run g room (.expression 0) ts
      let (v, _, rest) ← run g room (.choices (.conditional e e no)) rest
      return (v, room + 1, rest)) := by
  simp only [run]
  rw [choices.eq_def]
  simp only [Except.map, bind, Except.bind]
  rcases expression g room 0 ts with _ | ⟨no, rest, h⟩
  · rfl
  simp only []
  rcases choices g room (.conditional e e no) rest with _ | r <;> rfl

theorem run_choice (h : nextIs .colon ts = false) :
    run g (room + 1) (.choices e) (⟨.punctuation .question, position⟩ :: ts) = (do
      let (yes, _, rest) ← run g room (.expression 0) ts
      if nextIs .colon rest then
        let (no, _, rest) ← run g room (.expression 0) (rest.drop 1)
        let (v, _, rest) ← run g room (.choices (.conditional e yes no)) rest
        return (v, room + 1, rest)
      else
        let (v, _, rest) ← run g room (.choices (.conditional e yes (.const .null))) rest
        return (v, room + 1, rest)) := by
  simp only [run]
  rw [choices.eq_def]
  simp only []
  split
  · simp [nextIs] at h
  simp only [Except.map, bind, Except.bind]
  rcases expression g room 0 ts with _ | ⟨yes, rest, h⟩
  · rfl
  by_cases hc : nextIs .colon rest = true
  · simp only [hc, if_true]
    rcases expression g room 0 (rest.drop 1) with _ | ⟨no, rest, h⟩
    · rfl
    simp only []
    rcases choices g room (.conditional e yes no) rest with _ | r <;> rfl
  · simp only [hc]
    rcases choices g room (.conditional e yes (.const .null)) rest with _ | r <;> rfl

/-! ## Lists in brackets -/

section Elements

variable {close : Punctuation} {comma : Requirement} {trailing first : Bool}

theorem run_noElements (h : nextIs close ts = true) :
    run g room (.elements close comma trailing first) ts = .ok (.array [], room, ts.drop 1) := by
  simp only [run]
  rw [elements.eq_def]
  simp only [h, if_true, Except.map]

theorem run_firstElement (h : nextIs close ts = false) :
    run g room (.elements close comma trailing true) ts = (do
      let (e, _, rest) ← run g room (.expression 0) ts
      let (v, _, rest) ← run g room (.elements close comma trailing false) rest
      return (withElement e v, room, rest)) := by
  simp only [run]
  rw [elements.eq_def]
  simp only [h, if_true, Bool.false_eq_true, if_false, Except.map, bind, Except.bind]
  rcases expression g room 0 ts with _ | ⟨e, rest, h⟩
  · rfl
  simp only []
  rcases elements g room close comma trailing false rest with _ | r <;> rfl

theorem run_element (h : nextIs close ts = false) :
    run g room (.elements close comma trailing false) ts = (do
      let rest ← skip g .comma comma ts
      if trailing && nextIs close rest then return (.array [], room, rest.drop 1)
      else
        let (e, _, rest) ← run g room (.expression 0) rest
        let (v, _, rest) ← run g room (.elements close comma trailing false) rest
        return (withElement e v, room, rest)) := by
  simp only [run]
  rw [elements.eq_def]
  simp only [h, Bool.false_eq_true, if_false, Except.map, bind, Except.bind, skip]
  rcases g.expect .comma comma ts with _ | ⟨_, rest, h⟩
  · rfl
  by_cases hc : (trailing && nextIs close rest) = true
  · simp only [hc, if_true]
    rfl
  simp only [hc]
  rcases expression g room 0 rest with _ | ⟨e, rest, h⟩
  · rfl
  simp only []
  rcases elements g room close comma trailing false rest with _ | r <;> rfl

end Elements

/-- The key of a hash entry, and the tokens behind its colon. -/
def keyed (g : Setting) (ts : List Token) : Except Refusal (String × List Token) :=
  (g.key ts).map fun r => (r.value, r.rest)

theorem keyed_cons {l : Lexeme} :
    keyed g (⟨l, position⟩ :: ts) =
      match key? l with
      | some k => (skip g .colon .keyColon ts).map (k, ·)
      | none => .error (.fault (.badKey (some l)) position) := by
  have named (k : String) : keyed g (⟨.name k, position⟩ :: ts) =
      (skip g .colon .keyColon ts).map (k, ·) := by
    simp only [keyed, Setting.key, skip, pure, Except.pure, bind, Except.bind]
    rcases g.expect .colon .keyColon ts with _ | r <;> rfl
  cases l with
  | name s => exact named s
  | string s => exact named s
  | number n =>
    cases n with
    | int n _ => exact named (intText n)
    | float x => rfl
  | operator s => rfl
  | punctuation p => rfl

theorem keyed_of_key? {l : Lexeme} {k : String} (hk : key? l = some k)
    (hn : nextIs .colon ts = true) :
    keyed g (⟨l, position⟩ :: ts) = .ok (k, ts.drop 1) := by
  rw [keyed_cons, hk, skip_of_nextIs hn]
  rfl

theorem keyed_eq_ok {k : String} {rest : List Token} (h : keyed g ts = .ok (k, rest)) :
    ∃ l place colon, key? l = some k ∧
      ts = ⟨l, place⟩ :: ⟨.punctuation .colon, colon⟩ :: rest := by
  cases ts with
  | nil => cases h
  | cons t ts =>
    rw [keyed_cons] at h
    rcases hk : key? t.lexeme with _ | key <;> rw [hk] at h
    · cases h
    rcases hs : skip g .colon .keyColon ts with _ | rest' <;> rw [hs] at h <;> cases h
    obtain ⟨colon, rfl⟩ := skip_eq_ok hs
    exact ⟨t.lexeme, t.position, colon, hk, rfl⟩

section Entries

theorem run_noEntries {first : Bool} (h : nextIs .closeBrace ts = true) :
    run g room (.entries first) ts = .ok (.hash [], room, ts.drop 1) := by
  simp only [run]
  rw [entries.eq_def]
  simp only [h, if_true, Except.map]

theorem run_firstEntry (h : nextIs .closeBrace ts = false) :
    run g room (.entries true) ts = (do
      let (key, rest) ← keyed g ts
      let (e, _, rest) ← run g room (.expression 0) rest
      let (v, _, rest) ← run g room (.entries false) rest
      return (withEntry (key, e) v, room, rest)) := by
  simp only [run]
  rw [entries.eq_def]
  simp only [h, if_true, Bool.false_eq_true, if_false, Except.map, bind, Except.bind, keyed]
  rcases g.key ts with _ | ⟨key, rest, h⟩
  · rfl
  simp only []
  rcases expression g room 0 rest with _ | ⟨e, rest, h⟩
  · rfl
  simp only []
  rcases entries g room false rest with _ | r <;> rfl

theorem run_entry (h : nextIs .closeBrace ts = false) :
    run g room (.entries false) ts = (do
      let rest ← skip g .comma .hashComma ts
      if nextIs .closeBrace rest then return (.hash [], room, rest.drop 1)
      else
        let (key, rest) ← keyed g rest
        let (e, _, rest) ← run g room (.expression 0) rest
        let (v, _, rest) ← run g room (.entries false) rest
        return (withEntry (key, e) v, room, rest)) := by
  simp only [run]
  rw [entries.eq_def]
  simp only [h, Bool.false_eq_true, if_false, Except.map, bind, Except.bind, skip, keyed]
  rcases g.expect .comma .hashComma ts with _ | ⟨_, rest, h⟩
  · rfl
  by_cases hc : nextIs .closeBrace rest = true
  · simp only [hc, if_true]
    rfl
  simp only [hc]
  rcases g.key rest with _ | ⟨key, rest, h⟩
  · rfl
  simp only []
  rcases expression g room 0 rest with _ | ⟨e, rest, h⟩
  · rfl
  simp only []
  rcases entries g room false rest with _ | r <;> rfl

end Entries

end Criteria.Expr
