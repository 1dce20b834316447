import Mathlib.Data.List.Forall2
import Criteria.Proofs.Expr.Cursor
import Criteria.Proofs.Expr.Tiling

/-!
# Operators in words and in signs

Three operators have a spelling in words and one in signs. Two lists of tokens that differ in these
spellings only are read in step: the plans for them ask for the same phrases at tokens that differ
in these spellings only, and so down to the end. They give one expression, or refusals of one kind
at tokens of the same number.

A spelling in signs may be shorter than the one in words, so the places of the tokens may differ
too. `R` relates the place of each token to the place of its partner.
-/

namespace Criteria

/-! ## Spellings, lexemes and faults -/

/-- Two spellings of one operator, the first in words and the second in signs. -/
inductive Spelling.Alias : Spelling → Spelling → Prop
  | and : Alias andWord doubleAmpersand
  | or : Alias orWord doubleBar
  | not : Alias notWord bang

/-- The same lexeme, or the same operator in its other spelling. -/
inductive Lexeme.Respelled : Lexeme → Lexeme → Prop
  | refl (l : Lexeme) : Respelled l l
  | signs {s s' : Spelling} : s.Alias s' → Respelled (operator s) (operator s')
  | words {s s' : Spelling} : s.Alias s' → Respelled (operator s') (operator s)

/-- Faults of one kind, which may name a lexeme in two spellings. -/
inductive Fault.Respelled : Fault → Fault → Prop
  | refl (f : Fault) : Respelled f f
  | unexpected {l l' : Option Lexeme} : Option.Rel Lexeme.Respelled l l' →
      Respelled (unexpected l) (unexpected l')
  | missing (requirement : Requirement) {l l' : Option Lexeme} :
      Option.Rel Lexeme.Respelled l l' →
      Respelled (missing requirement l) (missing requirement l')
  | badKey {l l' : Option Lexeme} : Option.Rel Lexeme.Respelled l l' →
      Respelled (badKey l) (badKey l')

theorem Spelling.Alias.unary_eq {s s' : Spelling} (h : s.Alias s') :
    UnaryOp.ofSpelling? s = UnaryOp.ofSpelling? s' := by
  cases h <;> rfl

theorem Spelling.Alias.binary_eq {s s' : Spelling} (h : s.Alias s') :
    BinaryOp.ofSpelling? s = BinaryOp.ofSpelling? s' := by
  cases h <;> rfl

namespace Lexeme.Respelled

variable {l l' : Lexeme} {s s' : Spelling}

theorem punctuation_iff (h : l.Respelled l') {p : Punctuation} :
    l = .punctuation p ↔ l' = .punctuation p := by
  cases h with
  | refl => rfl
  | signs | words => exact ⟨fun h => (nomatch h), fun h => (nomatch h)⟩

theorem unary_eq (h : (operator s).Respelled (operator s')) :
    UnaryOp.ofSpelling? s = UnaryOp.ofSpelling? s' := by
  cases h with
  | refl => rfl
  | signs h => exact h.unary_eq
  | words h => exact h.unary_eq.symm

theorem key?_eq (h : l.Respelled l') : Expr.key? l = Expr.key? l' := by
  cases h <;> rfl

end Lexeme.Respelled

namespace Expr

/-! ## Partners -/

/-- Two tokens that differ in their place and in the spelling of an operator at most. -/
structure Partner (R : Nat → Nat → Prop) (t t' : Token) : Prop where
  lexeme : t.lexeme.Respelled t'.lexeme
  position : R t.position t'.position

abbrev Partners (R : Nat → Nat → Prop) : List Token → List Token → Prop :=
  List.Forall₂ (Partner R)

/-- Two settings in which the same functions are known. -/
structure Setting.Partner (R : Nat → Nat → Prop) (g g' : Setting) : Prop where
  known : g.known = g'.known
  stop : R g.stop g'.stop

/-- Two refusals of one kind at the same token. -/
inductive Refusal.Partner (R : Nat → Nat → Prop) : Refusal → Refusal → Prop
  | fault {f f' : Fault} {p p' : Nat} : f.Respelled f' → R p p' →
      Partner R (.fault f p) (.fault f' p')
  | unknownFunction (name : String) : Partner R (.unknownFunction name) (.unknownFunction name)

/-- The same expression and the same room, in front of partners. -/
structure Answer.Partner (R : Nat → Nat → Prop) (a a' : Answer) : Prop where
  value : a.1 = a'.1
  left : a.2.1 = a'.2.1
  rest : Partners R a.2.2 a'.2.2

/-- Two results, either with values that have `P` or with refusals of one kind. -/
inductive Alike {α : Type} (R : Nat → Nat → Prop) (P : α → α → Prop) :
    Except Refusal α → Except Refusal α → Prop
  | ok {a a' : α} : P a a' → Alike R P (.ok a) (.ok a')
  | error {r r' : Refusal} : r.Partner R r' → Alike R P (.error r) (.error r')

namespace Alike

variable {α β : Type} {R : Nat → Nat → Prop} {P : α → α → Prop} {Q : β → β → Prop}
  {x x' : Except Refusal α}

theorem bind {f f' : α → Except Refusal β} (h : Alike R P x x')
    (hf : ∀ a a', P a a' → Alike R Q (f a) (f' a')) : Alike R Q (x >>= f) (x' >>= f') := by
  cases h with
  | ok ha => exact hf _ _ ha
  | error hr => exact .error hr

theorem map {f f' : α → β} (h : Alike R P x x') (hf : ∀ a a', P a a' → Q (f a) (f' a')) :
    Alike R Q (x.map f) (x'.map f') := by
  cases h with
  | ok ha => exact .ok (hf _ _ ha)
  | error hr => exact .error hr

end Alike

section Tokens

variable {R : Nat → Nat → Prop} {g g' : Setting} {ts ts' : List Token}

theorem Setting.Partner.place (hg : g.Partner R g') (h : Partners R ts ts') :
    R (g.place ts) (g'.place ts') := by
  cases h with
  | nil => exact hg.stop
  | cons ht _ => exact ht.position

theorem Partners.head? (h : Partners R ts ts') :
    Option.Rel Lexeme.Respelled (ts.head?.map Token.lexeme) (ts'.head?.map Token.lexeme) := by
  cases h with
  | nil => exact .none
  | cons ht _ => exact .some ht.lexeme

theorem Partners.nextIs (h : Partners R ts ts') (p : Punctuation) :
    nextIs p ts = nextIs p ts' := by
  cases h with
  | nil => rfl
  | cons ht _ => exact decide_eq_decide.mpr ht.lexeme.punctuation_iff

theorem Partners.operator? (h : Partners R ts ts') (p : Nat) :
    Plan.operator? p ts = Plan.operator? p ts' := by
  cases h with
  | nil => rfl
  | @cons t t' _ _ ht _ =>
    obtain ⟨l, position⟩ := t
    obtain ⟨l', position'⟩ := t'
    cases ht.lexeme with
    | refl => cases l <;> rfl
    | signs hs => exact congrArg (Option.filter _) hs.binary_eq
    | words hs => exact congrArg (Option.filter _) hs.binary_eq.symm

theorem alike_skip (hg : g.Partner R g') (h : Partners R ts ts') (p : Punctuation)
    (requirement : Requirement) :
    Alike R (Partners R) (skip g p requirement ts) (skip g' p requirement ts') := by
  have hnext := h.nextIs p
  cases hn : Expr.nextIs p ts
  · rw [skip_of_not_nextIs hn, skip_of_not_nextIs (hnext ▸ hn)]
    exact .error (.fault (.missing requirement h.head?) (hg.place h))
  · rw [skip_of_nextIs hn, skip_of_nextIs (hnext ▸ hn)]
    exact .ok (List.forall₂_drop 1 h)

theorem alike_keyed (hg : g.Partner R g') (h : Partners R ts ts') :
    Alike R (fun a a' => a.1 = a'.1 ∧ Partners R a.2 a'.2) (keyed g ts) (keyed g' ts') := by
  cases h with
  | nil => exact .error (.fault (.refl _) hg.stop)
  | @cons t t' ts ts' ht h =>
    rw [keyed_cons, keyed_cons, ← ht.lexeme.key?_eq]
    cases key? t.lexeme with
    | none => exact .error (.fault (.badKey (.some ht.lexeme)) ht.position)
    | some k => exact (alike_skip hg h .colon .keyColon).map fun _ _ hrest => ⟨rfl, hrest⟩

end Tokens

/-! ## Plans in step -/

namespace Plan

variable {α β : Type} {R : Nat → Nat → Prop} {P : α → α → Prop} {Q : β → β → Prop}

/-- Two plans that ask for the same phrases at partners, and go on so where the answers are
partners. -/
inductive InStep {α : Type} (R : Nat → Nat → Prop) (P : α → α → Prop) : Plan α → Plan α → Prop
  | done {a a' : α} : P a a' → InStep R P (done a) (done a')
  | refuse {r r' : Refusal} : r.Partner R r' → InStep R P (refuse r) (refuse r')
  | ask {room : Nat} {phrase : Phrase} {ts ts' : List Token} {next next' : Answer → Plan α} :
      Partners R ts ts' →
      (∀ a a', Answer.Partner R a a' → InStep R P (next a) (next' a')) →
      InStep R P (ask ⟨room, phrase, ts⟩ next) (ask ⟨room, phrase, ts'⟩ next')

theorem InStep.bind {p p' : Plan α} {f f' : α → Plan β} (h : InStep R P p p')
    (hf : ∀ a a', P a a' → InStep R Q (f a) (f' a')) : InStep R Q (p >>= f) (p' >>= f') := by
  induction h with
  | done ha => exact hf _ _ ha
  | refuse hr => exact .refuse hr
  | ask hts _ ih => exact .ask hts ih

theorem InStep.ofExcept {x x' : Except Refusal α} (h : Alike R P x x') :
    InStep R P (ofExcept x) (ofExcept x') := by
  cases h with
  | ok ha => exact .done ha
  | error hr => exact .refuse hr

/-- Plans in step give results of one kind where calls at partners are answered so. -/
theorem InStep.within {p p' : Plan α} {answer answer' : Call → Option Outcome}
    (h : InStep R P p p')
    (hanswer : ∀ room phrase ts ts', Partners R ts ts' →
      Option.Rel (Alike R (Answer.Partner R)) (answer ⟨room, phrase, ts⟩)
        (answer' ⟨room, phrase, ts'⟩)) :
    Option.Rel (Alike R P) (p.within answer) (p'.within answer') := by
  induction h with
  | done ha => exact .some (.ok ha)
  | refuse hr => exact .some (.error hr)
  | @ask room phrase ts ts' next next' hts _ ih =>
    have ha := hanswer room phrase ts ts' hts
    rw [Plan.within, Plan.within]
    cases h : answer ⟨room, phrase, ts⟩ <;> cases h' : answer' ⟨room, phrase, ts'⟩ <;>
      rw [h, h'] at ha <;> cases ha
    · exact .none
    · next halike =>
      cases halike with
      | ok hp => exact ih _ _ hp
      | error hr => exact .some (.error hr)

variable {g g' : Setting} {room : Nat} {ts ts' : List Token} {e : Expr}

theorem inStep_read {phrase : Phrase} (h : Partners R ts ts') :
    InStep R (Answer.Partner R) (read room phrase ts) (read room phrase ts') :=
  .ask h fun _ _ ha => .done ha

/-- What is asked for is one expression for both, so that they may go on with it alike. -/
theorem inStep_read_bind {phrase : Phrase} {f f' : Answer → Plan α} (h : Partners R ts ts')
    (hf : ∀ e left rest rest', Partners R rest rest' →
      InStep R P (f (e, left, rest)) (f' (e, left, rest'))) :
    InStep R P (read room phrase ts >>= f) (read room phrase ts' >>= f') := by
  refine (inStep_read h).bind ?_
  rintro ⟨e, left, rest⟩ ⟨_, _, rest'⟩ ⟨rfl, rfl, hrest⟩
  exact hf e left rest rest' hrest

theorem inStep_fault (hg : g.Partner R g') {f f' : Fault} (hf : f.Respelled f')
    (h : Partners R ts ts') : InStep R P (fault g f ts) (fault g' f' ts') :=
  .refuse (.fault hf (hg.place h))

theorem inStep_ofExpression (hg : g.Partner R g') (h : Partners R ts ts') {p : Nat} :
    InStep R (Answer.Partner R) (ofExpression g room p ts) (ofExpression g' room p ts') := by
  cases room with
  | zero => exact inStep_fault hg (.refl _) h
  | succ room =>
    refine inStep_read_bind h ?_
    intro first left rest rest' hrest
    refine inStep_read_bind hrest ?_
    intro e left rest rest' hrest
    dsimp only
    split
    · refine inStep_read_bind hrest ?_
      intro e left rest rest' hrest
      exact .done ⟨rfl, rfl, hrest⟩
    · exact .done ⟨rfl, rfl, hrest⟩

theorem inStep_ofName (hg : g.Partner R g') (h : Partners R ts ts') {s : String} :
    InStep R (Answer.Partner R) (ofName g room s ts) (ofName g' room s ts') := by
  unfold ofName
  rw [h.nextIs, hg.known]
  split
  · exact inStep_read h
  split
  · split
    · refine inStep_read_bind (List.forall₂_drop 1 h) ?_
      intro e left rest rest' hrest
      exact inStep_read hrest
    · exact .refuse (.unknownFunction s)
  · exact inStep_read h

theorem inStep_ofSign (hg : g.Partner R g') (h : Partners R ts ts') {s s' : Spelling}
    (hs : (Lexeme.operator s).Respelled (.operator s')) {position position' : Nat}
    (hp : R position position') :
    InStep R (Answer.Partner R) (ofSign g room position s ts) (ofSign g' room position' s' ts') := by
  unfold ofSign
  rw [hs.unary_eq]
  split
  · exact inStep_fault hg (.unexpected (.some hs)) (.cons ⟨hs, hp⟩ h)
  · refine inStep_read_bind h ?_
    intro e left rest rest' hrest
    exact inStep_read hrest

theorem inStep_ofPunctuation (hg : g.Partner R g') (h : Partners R ts ts') {p : Punctuation}
    {position position' : Nat} (hp : R position position') :
    InStep R (Answer.Partner R) (ofPunctuation g room position p ts)
      (ofPunctuation g' room position' p ts') := by
  unfold ofPunctuation
  split
  · refine inStep_read_bind h ?_
    intro e left rest rest' hrest
    refine (InStep.ofExcept (alike_skip hg hrest .closeParen .closingParen)).bind ?_
    exact fun _ _ hrest => inStep_read hrest
  · refine inStep_read_bind h ?_
    intro e left rest rest' hrest
    exact inStep_read hrest
  · refine inStep_read_bind h ?_
    intro e left rest rest' hrest
    exact inStep_read hrest
  · exact inStep_fault hg (.refl _) (.cons ⟨.refl _, hp⟩ h)

theorem inStep_ofPrimary (hg : g.Partner R g') (h : Partners R ts ts') :
    InStep R (Answer.Partner R) (ofPrimary g room ts) (ofPrimary g' room ts') := by
  cases h with
  | nil => exact inStep_fault hg (.refl _) .nil
  | @cons t t' ts ts' ht h =>
    obtain ⟨l, position⟩ := t
    obtain ⟨l', position'⟩ := t'
    obtain ⟨hl, hp⟩ := ht
    cases hl with
    | refl =>
      cases l with
      | number n => exact inStep_read h
      | string s => exact inStep_read h
      | name s => exact inStep_ofName hg h
      | operator s => exact inStep_ofSign hg h (.refl _) hp
      | punctuation p => exact inStep_ofPunctuation hg h hp
    | signs hs => exact inStep_ofSign hg h (.signs hs) hp
    | words hs => exact inStep_ofSign hg h (.words hs) hp

theorem inStep_ofMember (hg : g.Partner R g') (h : Partners R ts ts') :
    InStep R (Answer.Partner R) (ofMember g room e ts) (ofMember g' room e ts') := by
  cases h with
  | nil => exact inStep_fault hg (.refl _) .nil
  | @cons t t' ts ts' ht h =>
    obtain ⟨l, position⟩ := t
    obtain ⟨l', position'⟩ := t'
    have hall := List.Forall₂.cons ht h
    cases ht.lexeme with
    | refl =>
      cases l with
      | name member =>
        simp only [ofMember]
        rw [Partners.nextIs h]
        split
        · exact inStep_fault hg (.refl _) h
        · exact inStep_read h
      | number | string | operator | punctuation => exact inStep_fault hg (.refl _) hall
    | signs | words => exact inStep_fault hg (.refl _) hall

theorem inStep_ofAccesses (hg : g.Partner R g') (h : Partners R ts ts') :
    InStep R (Answer.Partner R) (ofAccesses g room e ts) (ofAccesses g' room e ts') := by
  unfold ofAccesses
  rw [h.nextIs, h.nextIs]
  split
  · split
    · exact inStep_fault hg (.refl _) h
    split
    · exact inStep_ofMember hg (List.forall₂_drop 1 h)
    · refine inStep_read_bind (List.forall₂_drop 1 h) ?_
      intro key left rest rest' hrest
      refine (InStep.ofExcept (alike_skip hg hrest .closeBracket .closingIndex)).bind ?_
      exact fun _ _ hrest => inStep_read hrest
  · exact .done ⟨rfl, rfl, h⟩

theorem inStep_ofOperators (hg : g.Partner R g') (h : Partners R ts ts') {p : Nat} :
    InStep R (Answer.Partner R) (ofOperators g room p e ts) (ofOperators g' room p e ts') := by
  unfold ofOperators
  rw [h.operator?]
  split
  · exact .done ⟨rfl, rfl, h⟩
  split
  · exact inStep_fault hg (.refl _) h
  · refine inStep_read_bind (List.forall₂_drop 1 h) ?_
    intro right left rest rest' hrest
    exact inStep_read hrest

theorem inStep_ofChoice (h : Partners R ts ts') {yes no : Expr} :
    InStep R (Answer.Partner R) (ofChoice room e yes no ts) (ofChoice room e yes no ts') := by
  refine inStep_read_bind h ?_
  intro v left rest rest' hrest
  exact .done ⟨rfl, rfl, hrest⟩

theorem inStep_ofChoices (hg : g.Partner R g') (h : Partners R ts ts') :
    InStep R (Answer.Partner R) (ofChoices g room e ts) (ofChoices g' room e ts') := by
  unfold ofChoices
  rw [h.nextIs, Partners.nextIs (List.forall₂_drop 1 h)]
  split
  · split
    · exact inStep_fault hg (.refl _) h
    split
    · refine inStep_read_bind (List.forall₂_drop 2 h) ?_
      intro no left rest rest' hrest
      exact inStep_ofChoice hrest
    · refine inStep_read_bind (List.forall₂_drop 1 h) ?_
      intro yes left rest rest' hrest
      dsimp only
      rw [Partners.nextIs hrest]
      split
      · refine inStep_read_bind (List.forall₂_drop 1 hrest) ?_
        intro no left rest rest' hrest
        exact inStep_ofChoice hrest
      · exact inStep_ofChoice hrest
  · exact .done ⟨rfl, rfl, h⟩

section Elements

variable {close : Punctuation} {comma : Requirement} {trailing first : Bool}

theorem inStep_ofElement (h : Partners R ts ts') :
    InStep R (Answer.Partner R) (ofElement room close comma trailing ts)
      (ofElement room close comma trailing ts') := by
  refine inStep_read_bind h ?_
  intro e left rest rest' hrest
  refine inStep_read_bind hrest ?_
  intro v left rest rest' hrest
  exact .done ⟨rfl, rfl, hrest⟩

theorem inStep_ofElements (hg : g.Partner R g') (h : Partners R ts ts') :
    InStep R (Answer.Partner R) (ofElements g room close comma trailing first ts)
      (ofElements g' room close comma trailing first ts') := by
  unfold ofElements
  rw [h.nextIs]
  split
  · exact .done ⟨rfl, rfl, List.forall₂_drop 1 h⟩
  split
  · exact inStep_ofElement h
  · refine (InStep.ofExcept (alike_skip hg h .comma comma)).bind ?_
    intro rest rest' hrest
    rw [Partners.nextIs hrest]
    split
    · exact .done ⟨rfl, rfl, List.forall₂_drop 1 hrest⟩
    · exact inStep_ofElement hrest

end Elements

theorem inStep_ofEntry (hg : g.Partner R g') (h : Partners R ts ts') :
    InStep R (Answer.Partner R) (ofEntry g room ts) (ofEntry g' room ts') := by
  refine (InStep.ofExcept (alike_keyed hg h)).bind ?_
  rintro ⟨key, rest⟩ ⟨_, rest'⟩ ⟨rfl, hrest⟩
  refine inStep_read_bind hrest ?_
  intro e left rest rest' hrest
  refine inStep_read_bind hrest ?_
  intro v left rest rest' hrest
  exact .done ⟨rfl, rfl, hrest⟩

theorem inStep_ofEntries (hg : g.Partner R g') (h : Partners R ts ts') {first : Bool} :
    InStep R (Answer.Partner R) (ofEntries g room first ts) (ofEntries g' room first ts') := by
  unfold ofEntries
  rw [h.nextIs]
  split
  · exact .done ⟨rfl, rfl, List.forall₂_drop 1 h⟩
  split
  · exact inStep_ofEntry hg h
  · refine (InStep.ofExcept (alike_skip hg h .comma .hashComma)).bind ?_
    intro rest rest' hrest
    rw [Partners.nextIs hrest]
    split
    · exact .done ⟨rfl, rfl, List.forall₂_drop 1 hrest⟩
    · exact inStep_ofEntry hg hrest

end Plan

/-! ## Runs in step -/

section Run

variable {R : Nat → Nat → Prop} {g g' : Setting} {room : Nat} {phrase : Phrase}
  {ts ts' : List Token}

theorem Call.inStep_plan (hg : g.Partner R g') (h : Partners R ts ts') :
    Plan.InStep R (Answer.Partner R) ((⟨room, phrase, ts⟩ : Call).plan g)
      ((⟨room, phrase, ts'⟩ : Call).plan g') := by
  cases phrase with
  | expression p => exact Plan.inStep_ofExpression hg h
  | primary => exact Plan.inStep_ofPrimary hg h
  | accesses e => exact Plan.inStep_ofAccesses hg h
  | operators p e => exact Plan.inStep_ofOperators hg h
  | choices e => exact Plan.inStep_ofChoices hg h
  | elements close comma trailing first => exact Plan.inStep_ofElements hg h
  | entries first => exact Plan.inStep_ofEntries hg h

theorem alike_readWithin (hg : g.Partner R g') (fuel : Nat) (h : Partners R ts ts') :
    Option.Rel (Alike R (Answer.Partner R)) (readWithin g fuel ⟨room, phrase, ts⟩)
      (readWithin g' fuel ⟨room, phrase, ts'⟩) := by
  induction fuel generalizing room phrase ts ts' with
  | zero => exact .none
  | succ fuel ih => exact (Call.inStep_plan hg h).within fun _ _ _ _ h => ih h

/-- The reader keeps in step on partners, whatever phrase it reads. -/
theorem alike_run (hg : g.Partner R g') (h : Partners R ts ts') :
    Alike R (Answer.Partner R) (run g room phrase ts) (run g' room phrase ts') := by
  have hrel : Option.Rel (Alike R (Answer.Partner R))
      (readWithin g (3 * ts.length + 3) ⟨room, phrase, ts⟩)
      (readWithin g' (3 * ts.length + 3) ⟨room, phrase, ts'⟩) := alike_readWithin hg _ h
  have hcost := cost_le phrase ts
  have hcost' := cost_le phrase ts'
  rw [← h.length_eq] at hcost'
  rw [readWithin_eq (Nat.lt_succ_of_le hcost), readWithin_eq (Nat.lt_succ_of_le hcost')] at hrel
  cases hrel with
  | some halike => exact halike

end Run

/-! ## Whole texts -/

theorem alike_whole {R : Nat → Nat → Prop} {g g' : Setting} {a a' : Answer}
    (h : Answer.Partner R a a') : Alike R (· = ·) (whole g a) (whole g' a') := by
  obtain ⟨v, left, rest⟩ := a
  obtain ⟨_, _, rest'⟩ := a'
  obtain ⟨rfl, rfl, hrest⟩ := h
  cases hrest with
  | nil => exact .ok rfl
  | cons ht hrest => exact .error (.fault (.unexpected (.some ht.lexeme)) ht.position)

/-- Places of tokens of the same number, where the end counts as the last token. -/
def SameToken (text text' : TokenList) (p p' : Nat) : Prop :=
  ∃ i : Nat, text.places[i]? = some p ∧ text'.places[i]? = some p'

variable {text text' : TokenList}

theorem getElem?_places {i : Nat} (h : i < text.tokens.length) :
    text.places[i]? = some text.tokens[i].position := by
  simp [TokenList.places, List.getElem?_append, h]

theorem getElem?_places_length : text.places[text.tokens.length]? = some text.stop := by
  simp [TokenList.places]

theorem partners_of_respelled
    (h : List.Forall₂ (fun t t' => t.lexeme.Respelled t'.lexeme) text.tokens text'.tokens) :
    Partners (SameToken text text') text.tokens text'.tokens := by
  refine List.forall₂_of_length_eq_of_get h.length_eq fun i hi hi' => ?_
  exact ⟨h.get hi hi', i, getElem?_places hi, getElem?_places hi'⟩

/-- The spelling of `and`, `or` and `not` changes neither the expression that a text is nor the
kind of a refusal and the token that is refused. -/
theorem ofTokens_respelled {known : String → Bool}
    (h : List.Forall₂ (fun t t' => t.lexeme.Respelled t'.lexeme) text.tokens text'.tokens) :
    Alike (SameToken text text') (· = ·) (ofTokens known text) (ofTokens known text') := by
  have hstop : SameToken text text' text.stop text'.stop :=
    ⟨text.tokens.length, getElem?_places_length, h.length_eq ▸ getElem?_places_length⟩
  have hg : Setting.Partner (SameToken text text') ⟨known, text.stop⟩ ⟨known, text'.stop⟩ :=
    ⟨rfl, hstop⟩
  rw [ofTokens_eq_whole, ofTokens_eq_whole]
  exact (alike_run hg (partners_of_respelled h)).bind fun _ _ ha => alike_whole ha

/-- The tokens of `not a and b or and`. -/
def inWordTokens : TokenList :=
  ⟨[⟨.operator .notWord, 0⟩, ⟨.name "a", 4⟩, ⟨.operator .andWord, 6⟩, ⟨.name "b", 10⟩,
    ⟨.operator .orWord, 12⟩, ⟨.operator .andWord, 15⟩], 18⟩

/-- The tokens of `! a and b || &&`. -/
def inSignTokens : TokenList :=
  ⟨[⟨.operator .bang, 0⟩, ⟨.name "a", 2⟩, ⟨.operator .andWord, 4⟩, ⟨.name "b", 8⟩,
    ⟨.operator .doubleBar, 10⟩, ⟨.operator .doubleAmpersand, 13⟩], 15⟩

/-- Both texts are refused at the last token, which is the same operator in two spellings. -/
theorem ofTokens_respelled_refused :
    List.Forall₂ (fun t t' => t.lexeme.Respelled t'.lexeme) inWordTokens.tokens
        inSignTokens.tokens ∧
      Alike (SameToken inWordTokens inSignTokens) (· = ·)
        (ofTokens (fun _ => false) inWordTokens) (ofTokens (fun _ => false) inSignTokens) := by
  have h : List.Forall₂ (fun t t' => t.lexeme.Respelled t'.lexeme) inWordTokens.tokens
      inSignTokens.tokens :=
    .cons (.signs .not) <| .cons (.refl _) <| .cons (.refl _) <| .cons (.refl _) <|
      .cons (.signs .or) <| .cons (.signs .and) .nil
  exact ⟨h, ofTokens_respelled h⟩

end Expr

end Criteria
