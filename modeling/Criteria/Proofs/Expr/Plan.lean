import Criteria.Proofs.Expr.Soundness

/-!
# The calls of the reader

What the reader does for one phrase, with the calls for other phrases as data: a plan asks for
one phrase after the other and goes on with what each of them gives. The plans use none of the
functions of the reader and call for nothing on their own. The reader is what they give when it
answers their calls itself.

A loop over operators, members, choices, elements or entries calls for its own phrase at the
tokens that are left, once for each turn, so that the calls are the turns of the loops too.
-/

namespace Criteria.Expr

/-- A phrase that is to be read from the first of some tokens on. -/
structure Call where
  room : Nat
  phrase : Phrase
  tokens : List Token

/-- The expression read, the room left, and the tokens behind. -/
abbrev Answer := Expr × Nat × List Token

def Call.run (g : Setting) (c : Call) : Outcome := Expr.run g c.room c.phrase c.tokens

/-- What is left to do: a call and what follows on its answer. A refusal ends the whole. -/
inductive Plan (α : Type) where
  | done (a : α)
  | refuse (r : Refusal)
  | ask (c : Call) (next : Answer → Plan α)

namespace Plan

variable {α β : Type}

protected def bind : Plan α → (α → Plan β) → Plan β
  | done a, f => f a
  | refuse r, _ => refuse r
  | ask c next, f => ask c fun a => (next a).bind f

instance : Monad Plan where
  pure := done
  bind := Plan.bind

def ofExcept : Except Refusal α → Plan α
  | .ok a => done a
  | .error r => refuse r

/-- The answer to one call. -/
def read (room : Nat) (phrase : Phrase) (ts : List Token) : Plan Answer :=
  ask ⟨room, phrase, ts⟩ done

/-- What a plan gives where `answer` answers its calls. -/
def result (answer : Call → Outcome) : Plan α → Except Refusal α
  | done a => .ok a
  | refuse r => .error r
  | ask c next =>
    match answer c with
    | .error r => .error r
    | .ok a => (next a).result answer

/-- What a plan gives where `answer` may leave calls without an answer. -/
def within (answer : Call → Option Outcome) : Plan α → Option (Except Refusal α)
  | done a => some (.ok a)
  | refuse r => some (.error r)
  | ask c next =>
    match answer c with
    | none => none
    | some (.error r) => some (.error r)
    | some (.ok a) => (next a).within answer

/-- `Asks answer p c`: the plan `p` calls for `c` where `answer` answers its calls. -/
inductive Asks (answer : Call → Outcome) : Plan α → Call → Prop
  | first {c : Call} {next : Answer → Plan α} : Asks answer (ask c next) c
  | later {c c' : Call} {next : Answer → Plan α} {a : Answer} : answer c = .ok a →
      Asks answer (next a) c' → Asks answer (ask c next) c'

@[simp] theorem result_pure (answer : Call → Outcome) (a : α) :
    (pure a : Plan α).result answer = .ok a := rfl

@[simp] theorem result_read (answer : Call → Outcome) (room : Nat) (phrase : Phrase)
    (ts : List Token) : (read room phrase ts).result answer = answer ⟨room, phrase, ts⟩ := by
  rw [read, result]
  cases answer ⟨room, phrase, ts⟩ <;> rfl

@[simp] theorem result_ofExcept (answer : Call → Outcome) (x : Except Refusal α) :
    (ofExcept x).result answer = x := by
  cases x <;> rfl

@[simp] theorem result_bind (answer : Call → Outcome) (x : Plan α) (f : α → Plan β) :
    (x >>= f).result answer = x.result answer >>= fun a => (f a).result answer := by
  induction x with
  | done a => rfl
  | refuse r => rfl
  | ask c next ih =>
    show (ask c fun a => (next a).bind f).result answer = _
    rw [result, result]
    cases answer c with
    | error r => rfl
    | ok a => exact ih a

/-- Only the answers to the calls that are made matter. -/
theorem within_eq {answer : Call → Outcome} {answer' : Call → Option Outcome} {p : Plan α}
    (h : ∀ c, Asks answer p c → answer' c = some (answer c)) :
    p.within answer' = some (p.result answer) := by
  induction p with
  | done a => rfl
  | refuse r => rfl
  | ask c next ih =>
    rw [within, result, h c .first]
    rcases ha : answer c with r | a
    · rfl
    · exact ih a fun c' hc' => h c' (.later ha hc')

/-! ## What is done for each phrase -/

variable (g : Setting) (room : Nat)

/-- The fault `f` at the next token. -/
def fault (f : Fault) (ts : List Token) : Plan α := refuse (.fault f (g.place ts))

def ofExpression (precedence : Nat) (ts : List Token) : Plan Answer :=
  match room with
  | 0 => fault g .tooDeep ts
  | room + 1 => do
    let (first, left, rest) ← read room .primary ts
    let (e, left, rest) ← read left (.operators precedence first) rest
    if precedence = 0 then
      let (e, _, rest) ← read left (.choices e) rest
      return (e, room + 1, rest)
    else return (e, room + 1, rest)

def ofName (s : String) (ts : List Token) : Plan Answer :=
  match constantWord? s with
  | some c => read room (.accesses (.const c)) ts
  | none =>
    if nextIs .openParen ts then
      if g.known s then do
        let (e, _, rest) ←
          read room (.elements .closeParen .argumentComma false true) (ts.drop 1)
        read room (.accesses (callWith s e)) rest
      else refuse (.unknownFunction s)
    else read room (.accesses (.name s)) ts

def ofSign (position : Nat) (s : Spelling) (ts : List Token) : Plan Answer :=
  match UnaryOp.ofSpelling? s with
  | none => fault g (.unexpected (some (.operator s))) (⟨.operator s, position⟩ :: ts)
  | some op => do
    let (e, _, rest) ← read room (.expression op.precedence) ts
    read room (.accesses (.unary op e)) rest


def ofPunctuation (position : Nat) (p : Punctuation) (ts : List Token) : Plan Answer :=
  match p with
  | .openParen => do
    let (e, _, rest) ← read room (.expression 0) ts
    let rest ← ofExcept (skip g .closeParen .closingParen rest)
    read room (.accesses e) rest
  | .openBracket => do
    let (e, _, rest) ← read room (.elements .closeBracket .arrayComma true true) ts
    read room (.accesses e) rest
  | .openBrace => do
    let (e, _, rest) ← read room (.entries true) ts
    read room (.accesses e) rest
  | p => fault g (.unexpected (some (.punctuation p))) (⟨.punctuation p, position⟩ :: ts)

def ofPrimary : List Token → Plan Answer
  | [] => fault g (.unexpected none) []
  | ⟨l, position⟩ :: ts =>
    match l with
    | .number n => read room (.accesses (.const n.toValue)) ts
    | .string s => read room (.accesses (.const (.string s))) ts
    | .name s => ofName g room s ts
    | .operator s => ofSign g room position s ts
    | .punctuation p => ofPunctuation g room position p ts

def ofMember (e : Expr) : List Token → Plan Answer
  | ⟨.name member, _⟩ :: rest =>
    if nextIs .openParen rest then fault g (.methodCall member) rest
    else read room (.accesses (.access e (.const (.string member)) .property)) rest
  | ts => fault g .missingMember ts

def ofAccesses (e : Expr) (ts : List Token) : Plan Answer :=
  if nextIs .dot ts || nextIs .openBracket ts then
    match room with
    | 0 => fault g .tooDeep ts
    | room + 1 =>
      if nextIs .dot ts then ofMember g room e (ts.drop 1)
      else do
        let (key, _, rest) ← read room (.expression 0) (ts.drop 1)
        let rest ← ofExcept (skip g .closeBracket .closingIndex rest)
        read room (.accesses (.access e key .index)) rest
  else return (e, room, ts)

/-- The operator that comes first, if it binds at least as tightly as `precedence`. -/
def operator? (precedence : Nat) : List Token → Option BinaryOp
  | ⟨.operator s, _⟩ :: _ => (BinaryOp.ofSpelling? s).filter (precedence ≤ ·.precedence)
  | _ => none

def ofOperators (precedence : Nat) (e : Expr) (ts : List Token) : Plan Answer :=
  match operator? precedence ts with
  | none => return (e, room, ts)
  | some op =>
    if room < level op then fault g .tooDeep ts
    else do
      let (right, _, rest) ←
        read (room - level op) (.expression op.rightPrecedence) (ts.drop 1)
      read (room - level op) (.operators precedence (join op e right)) rest

/-- The choices behind one whose alternatives are known, with the room that `e` had. -/
def ofChoice (e yes no : Expr) (ts : List Token) : Plan Answer := do
  let (v, _, rest) ← read room (.choices (.conditional e yes no)) ts
  return (v, room + 1, rest)

def ofChoices (e : Expr) (ts : List Token) : Plan Answer :=
  if nextIs .question ts then
    match room with
    | 0 => fault g .tooDeep ts
    | room + 1 =>
      if nextIs .colon (ts.drop 1) then do
        let (no, _, rest) ← read room (.expression 0) (ts.drop 2)
        ofChoice room e e no rest
      else do
        let (yes, _, rest) ← read room (.expression 0) (ts.drop 1)
        if nextIs .colon rest then
          let (no, _, rest) ← read room (.expression 0) (rest.drop 1)
          ofChoice room e yes no rest
        else ofChoice room e yes (.const .null) rest
  else return (e, room, ts)

/-- An element and those behind it. -/
def ofElement (close : Punctuation) (comma : Requirement) (trailing : Bool) (ts : List Token) :
    Plan Answer := do
  let (e, _, rest) ← read room (.expression 0) ts
  let (v, _, rest) ← read room (.elements close comma trailing false) rest
  return (withElement e v, room, rest)

def ofElements (close : Punctuation) (comma : Requirement) (trailing first : Bool)
    (ts : List Token) : Plan Answer :=
  if nextIs close ts then return (.array [], room, ts.drop 1)
  else if first then ofElement room close comma trailing ts
  else do
    let rest ← ofExcept (skip g .comma comma ts)
    if trailing && nextIs close rest then return (.array [], room, rest.drop 1)
    else ofElement room close comma trailing rest

/-- An entry and those behind it. -/
def ofEntry (ts : List Token) : Plan Answer := do
  let (key, rest) ← ofExcept (keyed g ts)
  let (e, _, rest) ← read room (.expression 0) rest
  let (v, _, rest) ← read room (.entries false) rest
  return (withEntry (key, e) v, room, rest)

def ofEntries (first : Bool) (ts : List Token) : Plan Answer :=
  if nextIs .closeBrace ts then return (.hash [], room, ts.drop 1)
  else if first then ofEntry g room ts
  else do
    let rest ← ofExcept (skip g .comma .hashComma ts)
    if nextIs .closeBrace rest then return (.hash [], room, rest.drop 1)
    else ofEntry g room rest

end Plan

/-- What the reader does for a call. -/
def Call.plan (g : Setting) (c : Call) : Plan Answer :=
  match c.phrase with
  | .expression precedence => .ofExpression g c.room precedence c.tokens
  | .primary => .ofPrimary g c.room c.tokens
  | .accesses e => .ofAccesses g c.room e c.tokens
  | .operators precedence e => .ofOperators g c.room precedence e c.tokens
  | .choices e => .ofChoices g c.room e c.tokens
  | .elements close comma trailing first =>
    .ofElements g c.room close comma trailing first c.tokens
  | .entries first => .ofEntries g c.room first c.tokens

/-! ## The plans are the reader's -/

namespace Plan

variable {g : Setting} {room : Nat} {ts : List Token} {e : Expr}

theorem result_ofExpression {p : Nat} :
    (ofExpression g room p ts).result (Call.run g) = run g room (.expression p) ts := by
  cases room with
  | zero => exact run_expression_zero.symm
  | succ room =>
    rw [run_expression, ofExpression]
    simp only [result_bind, result_read, Call.run]
    congr 1
    funext first
    obtain ⟨first, left, rest⟩ := first
    congr 1
    funext e
    obtain ⟨e, left, rest⟩ := e
    split <;> simp only [result_bind, result_read, Call.run, result_pure] <;> rfl

theorem result_ofName {s : String} {position : Nat} :
    (ofName g room s ts).result (Call.run g) = run g room .primary (⟨.name s, position⟩ :: ts) := by
  unfold ofName
  rcases hc : constantWord? s with _ | c
  · cases hn : nextIs .openParen ts
    · rw [run_name hc hn]
      exact result_read ..
    cases hk : g.known s
    · rw [run_unknown hc hk hn]
      rfl
    · rw [run_call hc hk hn]
      simp only [if_true, result_bind, result_read, Call.run]
  · rw [run_constant (l := .name s) hc]
    exact result_read ..

theorem result_ofSign {s : Spelling} {position : Nat} :
    (ofSign g room position s ts).result (Call.run g) =
      run g room .primary (⟨.operator s, position⟩ :: ts) := by
  unfold ofSign
  rcases hs : UnaryOp.ofSpelling? s with _ | op
  · rw [run_notUnary hs]
    rfl
  · rw [run_unary hs]
    simp only [result_bind, result_read, Call.run]

theorem result_ofPunctuation {p : Punctuation} {position : Nat} :
    (ofPunctuation g room position p ts).result (Call.run g) =
      run g room .primary (⟨.punctuation p, position⟩ :: ts) := by
  unfold ofPunctuation
  split
  · rw [run_group]
    simp only [result_bind, result_read, result_ofExcept, Call.run]
  · rw [run_array]
    simp only [result_bind, result_read, Call.run]
  · rw [run_hash]
    simp only [result_bind, result_read, Call.run]
  · next hparen hbracket hbrace =>
    rw [run_punctuation hparen hbracket hbrace]
    rfl

theorem result_ofPrimary :
    (ofPrimary g room ts).result (Call.run g) = run g room .primary ts := by
  cases ts with
  | nil => exact run_nothing.symm
  | cons t ts =>
    obtain ⟨l, position⟩ := t
    cases l with
    | number n =>
      rw [run_constant (c := n.toValue) rfl]
      exact result_read ..
    | string s =>
      rw [run_constant (c := .string s) rfl]
      exact result_read ..
    | name s => exact result_ofName
    | operator s => exact result_ofSign
    | punctuation p => exact result_ofPunctuation

theorem result_ofMember {position : Nat} :
    (ofMember g room e ts).result (Call.run g) =
      run g (room + 1) (.accesses e) (⟨.punctuation .dot, position⟩ :: ts) := by
  unfold ofMember
  split
  · next member place rest =>
    cases hn : nextIs .openParen rest
    · rw [run_property hn]
      exact result_read ..
    · rw [run_method hn]
      rfl
  · next hm =>
    rw [run_noMember hm]
    rfl

theorem result_ofAccesses :
    (ofAccesses g room e ts).result (Call.run g) = run g room (.accesses e) ts := by
  unfold ofAccesses
  by_cases h : nextIs .dot ts = true ∨ nextIs .openBracket ts = true
  · rw [if_pos (Bool.or_eq_true_iff.mpr h)]
    cases room with
    | zero =>
      rw [run_access_zero h]
      rfl
    | succ room =>
      simp only []
      split
      · next hd =>
        obtain ⟨position, ts, rfl⟩ := exists_of_nextIs hd
        exact result_ofMember
      · next hd =>
        obtain ⟨position, ts, rfl⟩ := exists_of_nextIs (h.resolve_left hd)
        rw [run_index]
        simp only [result_bind, result_read, result_ofExcept, Call.run, List.drop_one,
          List.tail_cons]
  · rw [if_neg (mt Bool.or_eq_true_iff.mp h)]
    simp only [not_or, Bool.not_eq_true] at h
    rw [run_noAccess h.1 h.2]
    rfl

theorem operator?_eq_some {p : Nat} {op : BinaryOp} (h : operator? p ts = some op) :
    ∃ s position rest, ts = ⟨.operator s, position⟩ :: rest ∧
      (BinaryOp.ofSpelling? s).filter (p ≤ ·.precedence) = some op := by
  unfold operator? at h
  split at h
  · exact ⟨_, _, _, rfl, h⟩
  · cases h

theorem result_ofOperators {p : Nat} :
    (ofOperators g room p e ts).result (Call.run g) = run g room (.operators p e) ts := by
  unfold ofOperators
  rcases ho : operator? p ts with _ | op
  · have hnone : ∀ s place rest, ts = ⟨.operator s, place⟩ :: rest →
        (BinaryOp.ofSpelling? s).filter (p ≤ ·.precedence) = none := by
      rintro s place rest rfl
      exact ho
    rw [run_noOperator hnone]
    rfl
  · obtain ⟨s, position, rest, rfl, hs⟩ := operator?_eq_some ho
    by_cases hlevel : room < level op
    · obtain ⟨rfl, hl⟩ := eq_zero_of_lt_level hlevel
      rw [run_operator_zero hs hl]
      simp only [hlevel, if_true]
      rfl
    · obtain ⟨room, rfl⟩ := Nat.exists_eq_add_of_le (Nat.le_of_not_lt hlevel)
      rw [run_operator hs]
      simp only [hlevel, if_false, Nat.add_sub_cancel_left, result_bind, result_read, Call.run,
        List.drop_one, List.tail_cons]

theorem result_ofChoice {yes no : Expr} :
    (ofChoice room e yes no ts).result (Call.run g) = (do
      let (v, _, rest) ← run g room (.choices (.conditional e yes no)) ts
      return (v, room + 1, rest)) := by
  simp only [ofChoice, result_bind, result_read, Call.run, result_pure]
  rfl

theorem result_ofChoices :
    (ofChoices g room e ts).result (Call.run g) = run g room (.choices e) ts := by
  unfold ofChoices
  cases hq : nextIs .question ts
  · rw [run_noChoice hq]
    rfl
  obtain ⟨position, ts, rfl⟩ := exists_of_nextIs hq
  cases room with
  | zero =>
    rw [run_choice_zero]
    rfl
  | succ room =>
    simp only [if_true, List.drop_succ_cons, List.drop_zero]
    cases hc : nextIs .colon ts
    · rw [run_choice hc]
      simp only [Bool.false_eq_true, if_false, result_bind, result_read, Call.run]
      congr 1
      funext ⟨yes, left, rest⟩
      split
      · simp only [result_bind, result_read, result_ofChoice, Call.run]
      · exact result_ofChoice
    · obtain ⟨place, ts, rfl⟩ := exists_of_nextIs hc
      rw [run_shortChoice]
      simp only [if_true, List.drop_succ_cons, List.drop_zero, result_bind, result_read,
        result_ofChoice, Call.run]

section Elements

variable {close : Punctuation} {comma : Requirement} {trailing first : Bool}

theorem result_ofElement :
    (ofElement room close comma trailing ts).result (Call.run g) = (do
      let (e, _, rest) ← run g room (.expression 0) ts
      let (v, _, rest) ← run g room (.elements close comma trailing false) rest
      return (withElement e v, room, rest)) := by
  simp only [ofElement, result_bind, result_read, Call.run, result_pure]
  rfl

theorem result_ofElements :
    (ofElements g room close comma trailing first ts).result (Call.run g) =
      run g room (.elements close comma trailing first) ts := by
  unfold ofElements
  cases hc : nextIs close ts
  · cases first with
    | true =>
      rw [run_firstElement hc]
      exact result_ofElement
    | false =>
      rw [run_element hc]
      simp only [Bool.false_eq_true, if_false, result_bind, result_ofExcept]
      congr 1
      funext rest
      split
      · rfl
      · exact result_ofElement
  · rw [run_noElements hc]
    rfl

end Elements

theorem result_ofEntry :
    (ofEntry g room ts).result (Call.run g) = (do
      let (key, rest) ← keyed g ts
      let (e, _, rest) ← run g room (.expression 0) rest
      let (v, _, rest) ← run g room (.entries false) rest
      return (withEntry (key, e) v, room, rest)) := by
  simp only [ofEntry, result_bind, result_read, result_ofExcept, Call.run, result_pure]
  rfl

theorem result_ofEntries {first : Bool} :
    (ofEntries g room first ts).result (Call.run g) = run g room (.entries first) ts := by
  unfold ofEntries
  cases hc : nextIs .closeBrace ts
  · cases first with
    | true =>
      rw [run_firstEntry hc]
      exact result_ofEntry
    | false =>
      rw [run_entry hc]
      simp only [Bool.false_eq_true, if_false, result_bind, result_ofExcept]
      congr 1
      funext rest
      split
      · rfl
      · exact result_ofEntry
  · rw [run_noEntries hc]
    rfl

end Plan

/-- The reader does for every call what the plan says, and answers the calls of the plan. -/
theorem Call.result_plan (g : Setting) (c : Call) :
    (c.plan g).result (Call.run g) = c.run g := by
  obtain ⟨room, phrase, ts⟩ := c
  cases phrase with
  | expression p => exact Plan.result_ofExpression
  | primary => exact Plan.result_ofPrimary
  | accesses e => exact Plan.result_ofAccesses
  | operators p e => exact Plan.result_ofOperators
  | choices e => exact Plan.result_ofChoices
  | elements close comma trailing first => exact Plan.result_ofElements
  | entries first => exact Plan.result_ofEntries

/-! ## Whole texts -/

/-- The expression, if nothing is left behind it. -/
def whole (g : Setting) (a : Answer) : Except Refusal Expr :=
  match a.2.2 with
  | [] => .ok a.1
  | t :: ts => g.refuse (.unexpected (some t.lexeme)) (t :: ts)

theorem ofTokens_eq_whole {known : String → Bool} {text : TokenList} :
    ofTokens known text =
      (⟨maxNesting, .expression 0, text.tokens⟩ : Call).run ⟨known, text.stop⟩ >>=
        whole ⟨known, text.stop⟩ := by
  rw [ofTokens_eq, Call.run]
  rcases run ⟨known, text.stop⟩ maxNesting (.expression 0) text.tokens with _ | ⟨v, left, _ | _⟩ <;>
    rfl

end Criteria.Expr
