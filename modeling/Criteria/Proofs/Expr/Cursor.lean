import Mathlib.Logic.Relation
import Criteria.Proofs.Expr.Plan

/-!
# How reading moves through the tokens

What is left behind a phrase is an end of the tokens that it was read from, a shorter one unless
the phrase may be empty. The phrases called for start at such ends too, and at each call the cost
gets less. An expression costs more than one that starts behind its first token, and no other, so
the expressions inside another one start behind its first token. The end of the tokens is left
where it is by all that may be empty and refused by all that may not, which is why no loop turns
there for ever.
-/

namespace Criteria.Expr

/-! ## Ends of lists of tokens -/

/-- The tokens `rest` are left of `ts` where at least `n` are taken off its front. -/
structure Behind (n : Nat) (rest ts : List Token) : Prop where
  suffix : rest <:+ ts
  length_le : rest.length + n ≤ ts.length

namespace Behind

variable {m n : Nat} {ts rest rest' : List Token}

theorem refl (ts : List Token) : Behind 0 ts ts := ⟨List.suffix_rfl, Nat.le_refl _⟩

theorem trans (h : Behind m rest' rest) (h' : Behind n rest ts) : Behind (m + n) rest' ts := by
  have hlength := h.length_le
  have hlength' := h'.length_le
  exact ⟨h.suffix.trans h'.suffix, by omega⟩

theorem mono (h : Behind n rest ts) (hm : m ≤ n) : Behind m rest ts :=
  ⟨h.suffix, Nat.le_trans (Nat.add_le_add_left hm _) h.length_le⟩

theorem tail (t : Token) (ts : List Token) : Behind 1 ts (t :: ts) :=
  ⟨List.suffix_cons t ts, Nat.le_refl _⟩

theorem drop_one (ts : List Token) : Behind 0 (ts.drop 1) ts :=
  ⟨List.drop_suffix 1 ts, (List.drop_sublist 1 ts).length_le⟩

theorem drop_of_nextIs {p : Punctuation} (h : nextIs p ts = true) : Behind 1 (ts.drop 1) ts := by
  obtain ⟨position, rest, rfl⟩ := exists_of_nextIs h
  exact tail ..

theorem of_skip {g : Setting} {p : Punctuation} {requirement : Requirement}
    (h : skip g p requirement ts = .ok rest) : Behind 1 rest ts := by
  obtain ⟨position, rfl⟩ := skip_eq_ok h
  exact tail ..

theorem of_keyed {g : Setting} {k : String} (h : keyed g ts = .ok (k, rest)) :
    Behind 1 rest ts := by
  obtain ⟨l, position, colon, -, rfl⟩ := keyed_eq_ok h
  exact ((tail ..).trans (tail ..)).mono (by decide)

/-- What is left behind the place `i` of a list stands at a later place, or at `i` itself. -/
theorem exists_drop {i : Nat} (h : Behind n rest (ts.drop i)) :
    ∃ j, i + n ≤ j ∧ rest = ts.drop j ∧ (0 < n → j ≤ ts.length) := by
  obtain ⟨front, hfront⟩ := h.suffix
  have hlength := congrArg List.length hfront
  have hle := h.length_le
  rw [List.length_append, List.length_drop] at hlength
  rw [List.length_drop] at hle
  refine ⟨i + front.length, by omega, ?_, by omega⟩
  rw [← List.drop_drop, ← hfront, List.drop_left]

end Behind

/-! ## What a plan may do -/

/-- The call `c` starts at or behind the start of `c'` and costs less. -/
structure Call.Inside (c c' : Call) : Prop where
  suffix : c.tokens <:+ c'.tokens
  cost_lt : cost c.phrase c.tokens < cost c'.phrase c'.tokens

/-- A refusal at one of the tokens `ts` or at the end. -/
inductive Refusal.Within (g : Setting) (ts : List Token) : Refusal → Prop
  | fault (f : Fault) {rest : List Token} : rest <:+ ts → Within g ts (.fault f (g.place rest))
  | unknownFunction (name : String) : Within g ts (.unknownFunction name)

theorem Call.Inside.trans {c c' c'' : Call} (h : c.Inside c') (h' : c'.Inside c'') :
    c.Inside c'' :=
  ⟨h.suffix.trans h'.suffix, Nat.lt_trans h.cost_lt h'.cost_lt⟩

/-- Behind a token every phrase costs less. -/
theorem Call.Inside.of_behind {room : Nat} {phrase : Phrase} {ts : List Token} {c : Call}
    (h : Behind 1 ts c.tokens) : (⟨room, phrase, ts⟩ : Call).Inside c :=
  ⟨h.suffix, cost_lt_of_lt h.length_le⟩

theorem Refusal.Within.mono {g : Setting} {ts ts' : List Token} {r : Refusal}
    (h : r.Within g ts) (hts : ts <:+ ts') : r.Within g ts' := by
  cases h with
  | fault f hrest => exact .fault f (hrest.trans hts)
  | unknownFunction name => exact .unknownFunction name

namespace Plan

variable {α β : Type} {g : Setting} {c : Call} {room : Nat} {ts : List Token} {e : Expr}

/-- A plan for the call `c`, as far as the tokens go: it asks for calls inside `c` only, refuses
at a token of `c` only and ends with something that has `P`, if the answers leave what they have
to leave. -/
inductive Keeps (g : Setting) (c : Call) (P : α → Prop) : Plan α → Prop
  | done {a : α} : P a → Keeps g c P (done a)
  | refuse {r : Refusal} : r.Within g c.tokens → Keeps g c P (refuse r)
  | ask {c' : Call} {next : Answer → Plan α} : c'.Inside c →
      (∀ a, Behind c'.phrase.least a.2.2 c'.tokens → Keeps g c P (next a)) →
      Keeps g c P (ask c' next)

/-- The plan of `c` leaves an end of the tokens `ts`. -/
abbrev Leaves (g : Setting) (c : Call) (n : Nat) (ts : List Token) (p : Plan Answer) : Prop :=
  Keeps g c (fun a => Behind n a.2.2 ts) p

namespace Keeps

variable {P : α → Prop} {Q : β → Prop}

theorem bind {p : Plan α} {f : α → Plan β} (h : Keeps g c P p)
    (hf : ∀ a, P a → Keeps g c Q (f a)) : Keeps g c Q (p >>= f) := by
  induction h with
  | done ha => exact hf _ ha
  | refuse hr => exact .refuse hr
  | ask hc _ ih => exact .ask hc ih

theorem imp {p : Plan α} {P' : α → Prop} (h : Keeps g c P p) (hp : ∀ a, P a → P' a) :
    Keeps g c P' p := by
  induction h with
  | done ha => exact .done (hp _ ha)
  | refuse hr => exact .refuse hr
  | ask hc _ ih => exact .ask hc ih

theorem fault (f : Fault) (hts : ts <:+ c.tokens) : Keeps g c P (Plan.fault g f ts) :=
  .refuse (.fault f hts)

theorem ofExcept {x : Except Refusal α} (hok : ∀ a, x = .ok a → P a)
    (herror : ∀ r, x = .error r → r.Within g c.tokens) : Keeps g c P (Plan.ofExcept x) := by
  cases x with
  | ok a => exact .done (hok a rfl)
  | error r => exact .refuse (herror r rfl)

theorem skip {p : Punctuation} {requirement : Requirement} (hts : ts <:+ c.tokens) :
    Keeps g c (Behind 1 · ts) (Plan.ofExcept (Expr.skip g p requirement ts)) := by
  refine ofExcept (fun _ => .of_skip) ?_
  intro r hr
  cases hn : nextIs p ts
  · rw [skip_of_not_nextIs hn] at hr
    cases hr
    exact .fault _ hts
  · rw [skip_of_nextIs hn] at hr
    cases hr

theorem keyed (hts : ts <:+ c.tokens) :
    Keeps g c (fun a => Behind 1 a.2 ts) (Plan.ofExcept (Expr.keyed g ts)) := by
  refine ofExcept (fun _ => .of_keyed) ?_
  intro r hr
  cases ts with
  | nil =>
    cases hr
    exact .fault _ hts
  | cons t ts =>
    rw [keyed_cons] at hr
    rcases hk : key? t.lexeme with _ | k <;> simp only [hk] at hr
    · cases hr
      exact .fault _ hts
    have hcolon : Keeps g c (Behind 1 · ts) (Plan.ofExcept (Expr.skip g .colon .keyColon ts)) :=
      skip ((List.suffix_cons t ts).trans hts)
    rcases hs : Expr.skip g .colon .keyColon ts with r' | rest <;> rw [hs] at hr hcolon <;> cases hr
    cases hcolon with
    | refuse hr => exact hr

end Keeps

theorem leaves_read {phrase : Phrase} (h : (⟨room, phrase, ts⟩ : Call).Inside c) :
    Leaves g c phrase.least ts (read room phrase ts) :=
  .ask h fun _ ha => .done ha

/-- A call behind a token leaves less than the call had. -/
theorem leaves_read_behind {phrase : Phrase} (h : Behind 1 ts c.tokens) :
    Leaves g c 1 c.tokens (read room phrase ts) :=
  (leaves_read (.of_behind h)).imp fun _ ha => (ha.trans h).mono (Nat.le_add_left ..)

theorem leaves_zero {p : Plan Answer} (h : Leaves g c 1 ts p) : Leaves g c 0 ts p :=
  h.imp fun _ ha => ha.mono (Nat.zero_le 1)

/-! ## The plans of the reader -/

theorem leaves_ofExpression {p : Nat} (hc : c.phrase = .expression p) :
    Leaves g c 1 c.tokens (ofExpression g room p c.tokens) := by
  cases room with
  | zero => exact .fault _ List.suffix_rfl
  | succ room =>
    have h : (⟨room, .primary, c.tokens⟩ : Call).Inside c := ⟨List.suffix_rfl, by simp [cost, hc]⟩
    refine (leaves_read h).bind ?_
    rintro ⟨first, left, rest⟩ hfirst
    refine (leaves_read_behind hfirst).bind ?_
    rintro ⟨e, left, rest⟩ hrest
    dsimp only
    split
    · exact (leaves_read_behind hrest).bind fun _ hv => .done hv
    · exact .done hrest

theorem leaves_ofName {s : String} (h : Behind 1 ts c.tokens) :
    Leaves g c 1 c.tokens (ofName g room s ts) := by
  unfold ofName
  split
  · exact leaves_read_behind h
  split
  · split
    · refine (leaves_read_behind ((Behind.drop_one ts).trans h)).bind fun a ha => ?_
      exact leaves_read_behind ha
    · exact .refuse (.unknownFunction s)
  · exact leaves_read_behind h

theorem leaves_ofSign {s : Spelling} {position : Nat} (hc : c.tokens = ⟨.operator s, position⟩ :: ts) :
    Leaves g c 1 c.tokens (ofSign g room position s ts) := by
  unfold ofSign
  split
  · exact .fault _ (hc ▸ List.suffix_rfl)
  · have h : Behind 1 ts c.tokens := hc ▸ .tail ..
    exact (leaves_read_behind h).bind fun a ha => leaves_read_behind ha

theorem leaves_ofPunctuation {p : Punctuation} {position : Nat}
    (hc : c.tokens = ⟨.punctuation p, position⟩ :: ts) :
    Leaves g c 1 c.tokens (ofPunctuation g room position p ts) := by
  have h : Behind 1 ts c.tokens := hc ▸ .tail ..
  unfold ofPunctuation
  split
  · refine (leaves_read_behind h).bind fun a ha => ?_
    refine (Keeps.skip ha.suffix).bind fun rest hrest => ?_
    exact leaves_read_behind ((hrest.trans ha).mono (by decide))
  · exact (leaves_read_behind h).bind fun a ha => leaves_read_behind ha
  · exact (leaves_read_behind h).bind fun a ha => leaves_read_behind ha
  · exact .fault _ (hc ▸ List.suffix_rfl)

theorem leaves_ofPrimary (hc : c.tokens = ts) : Leaves g c 1 c.tokens (ofPrimary g room ts) := by
  cases ts with
  | nil => exact .fault _ List.nil_suffix
  | cons t ts =>
    have h : Behind 1 ts c.tokens := hc ▸ .tail ..
    obtain ⟨l, position⟩ := t
    cases l with
    | number n => exact leaves_read_behind h
    | string s => exact leaves_read_behind h
    | name s => exact leaves_ofName h
    | operator s => exact leaves_ofSign hc
    | punctuation p => exact leaves_ofPunctuation hc

theorem leaves_ofMember (h : Behind 1 ts c.tokens) :
    Leaves g c 0 c.tokens (ofMember g room e ts) := by
  unfold ofMember
  split
  · next member place rest =>
    have hrest : Behind 1 rest c.tokens := ((Behind.tail ..).trans h).mono (by decide)
    split
    · exact .fault _ hrest.suffix
    · exact leaves_zero (leaves_read_behind hrest)
  · exact .fault _ h.suffix

theorem leaves_ofAccesses : Leaves g c 0 c.tokens (ofAccesses g room e c.tokens) := by
  unfold ofAccesses
  split
  · next hnext =>
    split
    · exact .fault _ List.suffix_rfl
    split
    · next hd => exact leaves_ofMember (.drop_of_nextIs hd)
    · next hd =>
      have hb : nextIs .openBracket c.tokens = true :=
        (Bool.or_eq_true_iff.mp hnext).resolve_left hd
      refine (leaves_read_behind (.drop_of_nextIs hb)).bind fun a ha => ?_
      refine (Keeps.skip ha.suffix).bind fun rest hrest => ?_
      exact leaves_zero (leaves_read_behind ((hrest.trans ha).mono (by decide)))
  · exact .done (.refl c.tokens)

theorem leaves_ofOperators {p : Nat} : Leaves g c 0 c.tokens (ofOperators g room p e c.tokens) := by
  unfold ofOperators
  split
  · exact .done (.refl c.tokens)
  · next op ho =>
    obtain ⟨s, position, rest, hts, -⟩ := operator?_eq_some ho
    have h : Behind 1 (c.tokens.drop 1) c.tokens := hts ▸ .tail ..
    split
    · exact .fault _ List.suffix_rfl
    · exact leaves_zero ((leaves_read_behind h).bind fun a ha => leaves_read_behind ha)

theorem leaves_ofChoice {yes no : Expr} (h : Behind 1 ts c.tokens) :
    Leaves g c 0 c.tokens (ofChoice room e yes no ts) :=
  leaves_zero ((leaves_read_behind h).bind fun _ hrest => .done hrest)

theorem leaves_ofChoices : Leaves g c 0 c.tokens (ofChoices g room e c.tokens) := by
  unfold ofChoices
  split
  · next hq =>
    have h : Behind 1 (c.tokens.drop 1) c.tokens := .drop_of_nextIs hq
    split
    · exact .fault _ List.suffix_rfl
    split
    · have h' : Behind 1 (c.tokens.drop 2) c.tokens := by
        rw [← List.drop_drop (i := 1) (j := 1)]
        exact (Behind.drop_one _).trans h
      exact (leaves_read_behind h').bind fun a ha => leaves_ofChoice ha
    · refine (leaves_read_behind h).bind ?_
      rintro ⟨yes, left, rest⟩ hrest
      dsimp only
      split
      · have hno : Behind 1 (rest.drop 1) c.tokens := (Behind.drop_one rest).trans hrest
        exact (leaves_read_behind hno).bind fun a ha => leaves_ofChoice ha
      · exact leaves_ofChoice hrest
  · exact .done (.refl c.tokens)

/-- The first element of a list costs less than the list though it starts at the same token. -/
theorem leaves_ofElement {close : Punctuation} {comma : Requirement} {trailing : Bool}
    (h : (⟨room, .expression 0, ts⟩ : Call).Inside c) :
    Leaves g c 1 c.tokens (ofElement room close comma trailing ts) := by
  have hts : Behind 0 ts c.tokens := ⟨h.suffix, h.suffix.length_le⟩
  refine (leaves_read h).bind fun a ha => ?_
  exact (leaves_read_behind (ha.trans hts)).bind fun _ hrest => .done hrest

theorem leaves_ofElements {close : Punctuation} {comma : Requirement} {trailing first : Bool}
    (hc : c.phrase = .elements close comma trailing first) :
    Leaves g c 1 c.tokens (ofElements g room close comma trailing first c.tokens) := by
  unfold ofElements
  split
  · next hn => exact .done (.drop_of_nextIs hn)
  split
  · exact leaves_ofElement ⟨List.suffix_rfl, by simp [cost, hc]⟩
  · refine (Keeps.skip List.suffix_rfl).bind fun rest hrest => ?_
    split
    · exact .done ((Behind.drop_one rest).trans hrest)
    · exact leaves_ofElement (.of_behind hrest)

theorem leaves_ofEntry (hts : ts <:+ c.tokens) : Leaves g c 1 c.tokens (ofEntry g room ts) := by
  have h : Behind 0 ts c.tokens := ⟨hts, hts.length_le⟩
  refine (Keeps.keyed hts).bind fun a ha => ?_
  refine (leaves_read_behind (ha.trans h)).bind fun b hb => ?_
  exact (leaves_read_behind hb).bind fun _ hrest => .done hrest

theorem leaves_ofEntries {first : Bool} :
    Leaves g c 1 c.tokens (ofEntries g room first c.tokens) := by
  unfold ofEntries
  split
  · next hn => exact .done (.drop_of_nextIs hn)
  split
  · exact leaves_ofEntry List.suffix_rfl
  · refine (Keeps.skip List.suffix_rfl).bind fun rest hrest => ?_
    split
    · exact .done ((Behind.drop_one rest).trans hrest)
    · exact leaves_ofEntry hrest.suffix

end Plan

theorem Call.leaves_plan (g : Setting) (c : Call) :
    Plan.Leaves g c c.phrase.least c.tokens (c.plan g) := by
  obtain ⟨room, phrase, ts⟩ := c
  cases phrase with
  | expression p => exact Plan.leaves_ofExpression rfl
  | primary => exact Plan.leaves_ofPrimary rfl
  | accesses e => exact Plan.leaves_ofAccesses
  | operators p e => exact Plan.leaves_ofOperators
  | choices e => exact Plan.leaves_ofChoices
  | elements close comma trailing first => exact Plan.leaves_ofElements rfl
  | entries first => exact Plan.leaves_ofEntries

/-! ## Runs of the reader -/

/-- How a call ends: what is behind the phrase is left of its tokens, or one of them is refused. -/
inductive Call.Settles (g : Setting) (c : Call) : Outcome → Prop
  | answer {a : Answer} : Behind c.phrase.least a.2.2 c.tokens → Settles g c (.ok a)
  | refusal {r : Refusal} : r.Within g c.tokens → Settles g c (.error r)

variable {g : Setting} {c c' : Call}

namespace Plan.Keeps

variable {α : Type} {P : α → Prop} {answer : Call → Outcome}

theorem settles {p : Plan Answer} (h : Leaves g c c.phrase.least c.tokens p)
    (hanswer : ∀ c' : Call, c'.Inside c → c'.Settles g (answer c')) : c.Settles g (p.result answer) := by
  induction h with
  | done ha => exact .answer ha
  | refuse hr => exact .refusal hr
  | @ask c' next hc' _ ih =>
    have hc := hanswer c' hc'
    rw [result]
    rcases ha : answer c' with r | a <;> rw [ha] at hc
    · cases hc with
      | refusal hr => exact .refusal (hr.mono hc'.suffix)
    · cases hc with
      | answer hrest => exact ih a hrest

theorem inside {p : Plan α} (h : Keeps g c P p)
    (hanswer : ∀ c' : Call, c'.Inside c → c'.Settles g (answer c')) (hasks : Asks answer p c') :
    c'.Inside c := by
  induction h with
  | done _ => cases hasks
  | refuse _ => cases hasks
  | @ask c'' next hc'' _ ih =>
    cases hasks with
    | first => exact hc''
    | later ha hlater =>
      have hc := hanswer c'' hc''
      rw [ha] at hc
      cases hc with
      | answer hrest => exact ih _ hrest hlater

end Plan.Keeps

theorem Call.settles (g : Setting) (c : Call) : c.Settles g (c.run g) := by
  induction hn : cost c.phrase c.tokens using Nat.strongRecOn generalizing c with
  | _ n ih =>
    subst hn
    rw [← c.result_plan]
    exact (c.leaves_plan g).settles fun c' hc' => ih _ hc'.cost_lt c' rfl

/-- The reader calls for `c'` when it reads `c`. -/
def Invokes (g : Setting) (c c' : Call) : Prop := (c.plan g).Asks (Call.run g) c'

/-- The reader calls for `c'` when it reads `c`, or when it reads something that it calls for. -/
def Nested (g : Setting) : Call → Call → Prop := Relation.TransGen (Invokes g)

theorem Invokes.inside (h : Invokes g c c') : c'.Inside c :=
  (c.leaves_plan g).inside (fun c _ => c.settles g) h

theorem Nested.inside (h : Nested g c c') : c'.Inside c := by
  induction h with
  | single h => exact h.inside
  | tail _ h ih => exact h.inside.trans ih

/-- The reader where calls may stand in each other only so deep. -/
def readWithin (g : Setting) : Nat → Call → Option Outcome
  | 0, _ => none
  | fuel + 1, c => (c.plan g).within (readWithin g fuel)

/-- A call is answered where calls may stand in each other as deep as it costs. -/
theorem readWithin_eq {fuel : Nat} (h : cost c.phrase c.tokens < fuel) :
    readWithin g fuel c = some (c.run g) := by
  induction fuel generalizing c with
  | zero => exact absurd h (Nat.not_lt_zero _)
  | succ fuel ih =>
    rw [readWithin, ← c.result_plan]
    apply Plan.within_eq
    intro c' hasks
    have hc' : c'.Inside c := Invokes.inside hasks
    exact ih (Nat.lt_of_lt_of_le hc'.cost_lt (Nat.le_of_lt_succ h))

theorem cost_le (phrase : Phrase) (ts : List Token) : cost phrase ts ≤ 3 * ts.length + 2 := by
  unfold cost
  split <;> omega

/-! ## Whole texts -/

/-- The reading of a whole text where calls may stand in each other only so deep. -/
def ofTokensWithin (fuel : Nat) (known : String → Bool) (text : TokenList) :
    Option (Except Refusal Expr) :=
  (readWithin ⟨known, text.stop⟩ fuel ⟨maxNesting, .expression 0, text.tokens⟩).map
    (· >>= whole ⟨known, text.stop⟩)

/-- How reading moves through a text, from the token of number `i` on. The number of the tokens is
that of the end. `forward` is what an expression takes off, `nested` where the expressions inside
it start. `ends` bounds how deep calls stand in each other for every phrase, so for each loop of the
reader too, whether it succeeds or not. -/
structure Advances (known : String → Bool) (text : TokenList) : Prop where
  forward : ∀ room precedence i r,
    expression ⟨known, text.stop⟩ room precedence (text.tokens.drop i) = .ok r →
      ∃ j, i < j ∧ j ≤ text.tokens.length ∧ r.rest = text.tokens.drop j
  nested : ∀ room precedence i room' precedence' rest,
    Nested ⟨known, text.stop⟩ ⟨room, .expression precedence, text.tokens.drop i⟩
        ⟨room', .expression precedence', rest⟩ →
      ∃ j, i < j ∧ j ≤ text.tokens.length ∧ rest = text.tokens.drop j
  ends : ∀ room phrase i fuel, 3 * (text.tokens.length - i) + 2 < fuel →
    readWithin ⟨known, text.stop⟩ fuel ⟨room, phrase, text.tokens.drop i⟩ =
      some (run ⟨known, text.stop⟩ room phrase (text.tokens.drop i))
  whole : ∀ fuel, 3 * text.tokens.length + 2 < fuel →
    ofTokensWithin fuel known text = some (ofTokens known text)

/-- An expression that stands inside another one has fewer tokens from its start on. -/
theorem Nested.behind {room room' p p' : Nat} {ts ts' : List Token}
    (h : Nested g ⟨room, .expression p, ts⟩ ⟨room', .expression p', ts'⟩) : Behind 1 ts' ts := by
  have hinside := h.inside
  have hcost := hinside.cost_lt
  simp only [cost] at hcost
  exact ⟨hinside.suffix, by omega⟩

theorem behind_of_expression {room p : Nat} {ts : List Token} {r : Reading Expr ts.length}
    (h : expression g room p ts = .ok r) : Behind 1 r.rest ts := by
  have hrun : (⟨room, .expression p, ts⟩ : Call).run g = .ok (r.value, room, r.rest) := by
    rw [Call.run, run, h]
    rfl
  have hsettles := Call.settles g ⟨room, .expression p, ts⟩
  rw [hrun] at hsettles
  cases hsettles with
  | answer hrest => exact hrest

/-- What is read as an expression takes tokens off, the expressions in it start further on, and
no reading goes on for ever. -/
theorem reading_advances (known : String → Bool) (text : TokenList) : Advances known text := by
  constructor
  · intro room precedence i r h
    obtain ⟨j, hj, hrest, hle⟩ := (behind_of_expression h).exists_drop
    exact ⟨j, hj, hle Nat.one_pos, hrest⟩
  · intro room precedence i room' precedence' rest h
    obtain ⟨j, hj, hrest, hle⟩ := h.behind.exists_drop
    exact ⟨j, hj, hle Nat.one_pos, hrest⟩
  · intro room phrase i fuel h
    have hcost := cost_le phrase (text.tokens.drop i)
    rw [List.length_drop] at hcost
    exact readWithin_eq (Nat.lt_of_le_of_lt hcost h)
  · intro fuel h
    have hcost := cost_le (.expression 0) text.tokens
    rw [ofTokensWithin, readWithin_eq (Nat.lt_of_le_of_lt hcost h), ofTokens_eq_whole]
    rfl

/-- The tokens of `a + b`. -/
def sumTokens : TokenList := ⟨[⟨.name "a", 0⟩, ⟨.operator .plus, 2⟩, ⟨.name "b", 4⟩], 5⟩

theorem run_eq_of_readWithin (fuel : Nat) {out : Outcome} (hc : cost c.phrase c.tokens < fuel)
    (h : readWithin g fuel c = some out) : c.run g = out :=
  Option.some.inj ((readWithin_eq hc).symm.trans h)

theorem reading_advances_sum :
    Nested ⟨fun _ => false, 5⟩ ⟨2, .expression 0, sumTokens.tokens⟩
        ⟨0, .expression 31, sumTokens.tokens.drop 2⟩ ∧
      ∃ j, 0 < j ∧ j ≤ 3 ∧ sumTokens.tokens.drop 2 = sumTokens.tokens.drop j := by
  have hprimary : (⟨1, .primary, sumTokens.tokens⟩ : Call).run ⟨fun _ => false, 5⟩ =
      .ok (.name "a", 1, sumTokens.tokens.drop 1) :=
    run_eq_of_readWithin 10 (by decide) rfl
  have hnested : Nested ⟨fun _ => false, 5⟩ ⟨2, .expression 0, sumTokens.tokens⟩
      ⟨0, .expression 31, sumTokens.tokens.drop 2⟩ := by
    refine .tail (.single (.later hprimary .first)) ?_
    exact .first
  exact ⟨hnested, (reading_advances _ sumTokens).nested 2 0 0 0 31 _ hnested⟩

end Criteria.Expr
