import Criteria.Proofs.Expr.Completeness

/-!
# What is read has a derivation

Whatever the reader returns for a phrase, the grammar derives, with no more room than was
given. The proof follows the recursion of the reader: a phrase may assume it for all that
it reads behind its first token, and for the phrases that it starts with.
-/

namespace Criteria.Expr

theorem bind_eq_ok {ε α β : Type} {x : Except ε α} {f : α → Except ε β} {b : β}
    (h : x >>= f = .ok b) : ∃ a, x = .ok a ∧ f a = .ok b := by
  rcases x with e | a
  · cases h
  · exact ⟨a, rfl, h⟩

/-- Everything that is read as a phrase at the front of `ts` has a derivation. -/
def Sound (g : Setting) (phrase : Phrase) (ts : List Token) : Prop :=
  ∀ ⦃room left : Nat⦄ ⦃v : Expr⦄ ⦃rest : List Token⦄,
    run g room phrase ts = .ok (v, left, rest) →
      ∃ used need, Derives g.known phrase (lexemesOf ts) v (lexemesOf rest) used need ∧
        need ≤ room ∧ left = room - used

/-- What decreases from a phrase to those that it is read by. -/
def cost (phrase : Phrase) (ts : List Token) : Nat :=
  3 * ts.length +
    match phrase with
    | .expression _ => 1
    | .elements .. | .entries _ => 2
    | _ => 0

/-- All phrases that cost less than `bound` are read as the grammar derives them. -/
def SoundBelow (g : Setting) (bound : Nat) : Prop :=
  ∀ phrase ts, cost phrase ts < bound → Sound g phrase ts

theorem Derives.tokens_le {known : String → Bool} {phrase : Phrase} {ts rest : List Token}
    {v : Expr} {used need : Nat}
    (h : Derives known phrase (lexemesOf ts) v (lexemesOf rest) used need) :
    rest.length + phrase.least ≤ ts.length := by
  simpa using h.length_le

/-- Whether levels may stay taken behind a phrase. -/
def Phrase.keeps : Phrase → Bool
  | .primary | .accesses _ | .operators _ _ => true
  | _ => false

theorem Derives.used_eq_zero {known : String → Bool} {phrase : Phrase} {ls rest : List Lexeme}
    {v : Expr} {used need : Nat} (h : Derives known phrase ls v rest used need)
    (hk : phrase.keeps = false) : used = 0 := by
  cases h <;> first | rfl | cases hk

theorem Derives.elements_eq_array {known : String → Bool} {close : Punctuation}
    {comma : Requirement} {trailing first : Bool} {ls rest : List Lexeme} {v : Expr}
    {used need : Nat}
    (h : Derives known (.elements close comma trailing first) ls v rest used need) :
    ∃ es, v = .array es := by
  cases h <;> exact ⟨_, rfl⟩

theorem Derives.entries_eq_hash {known : String → Bool} {first : Bool} {ls rest : List Lexeme}
    {v : Expr} {used need : Nat} (h : Derives known (.entries first) ls v rest used need) :
    ∃ es, v = .hash es := by
  cases h <;> exact ⟨_, rfl⟩

/-- Behind the first token every phrase costs less. -/
theorem cost_lt_of_lt {phrase phrase' : Phrase} {ts ts' : List Token} (h : ts'.length < ts.length) :
    cost phrase' ts' < cost phrase ts := by
  unfold cost
  split <;> omega

/-- A reading that begins with a phrase behind which no levels stay taken: the phrase has a
derivation, and the reading goes on with the same room. -/
theorem SoundBelow.begin {g : Setting} {bound room : Nat} (ih : SoundBelow g bound)
    {phrase : Phrase} {ts : List Token} {α : Type}
    {next : Expr × Nat × List Token → Except Refusal α} {a : α}
    (h : run g room phrase ts >>= next = .ok a) (hcost : cost phrase ts < bound)
    (hk : phrase.keeps = false) :
    ∃ v rest need, Derives g.known phrase (lexemesOf ts) v (lexemesOf rest) 0 need ∧
      need ≤ room ∧ rest.length + phrase.least ≤ ts.length ∧ next (v, room, rest) = .ok a := by
  obtain ⟨⟨v, left, rest⟩, hv, hnext⟩ := bind_eq_ok h
  obtain ⟨used, need, d, hneed, rfl⟩ := ih _ _ hcost hv
  obtain rfl := d.used_eq_zero hk
  exact ⟨v, rest, need, d, hneed, d.tokens_le, hnext⟩

variable {g : Setting} {ts : List Token} {e : Expr}

theorem sound_expression {p : Nat} (ih : SoundBelow g (cost (.expression p) ts)) :
    Sound g (.expression p) ts := by
  intro room left v rest h
  cases room with
  | zero =>
    rw [run_expression_zero] at h
    cases h
  | succ room =>
    rw [run_expression] at h
    obtain ⟨⟨f, left₁, ts₁⟩, h₁, h⟩ := bind_eq_ok h
    obtain ⟨u₁, n₁, d₁, hn₁, rfl⟩ := ih _ _ (by simp [cost]) h₁
    have hlen₁ : ts₁.length + 1 ≤ ts.length := d₁.tokens_le
    obtain ⟨⟨e, left₂, ts₂⟩, h₂, h⟩ := bind_eq_ok h
    obtain ⟨u₂, n₂, d₂, hn₂, rfl⟩ := ih _ _ (cost_lt_of_lt hlen₁) h₂
    have hlen₂ : ts₂.length ≤ ts₁.length := d₂.tokens_le
    have hu₁ := d₁.used_le
    have hu₂ := d₂.used_le
    by_cases hp : p = 0
    · subst hp
      obtain ⟨v, ts₃, n₃, d₃, hn₃, -, h⟩ := ih.begin h (cost_lt_of_lt (by omega)) rfl
      cases h
      exact ⟨0, _, .full d₁ d₂ d₃, by omega, rfl⟩
    · simp only [if_neg hp] at h
      cases h
      exact ⟨0, _, .operand hp d₁ d₂, by omega, rfl⟩

section

variable {position : Nat} {ts : List Token}

theorem sound_constant {l : Lexeme} {c : Value} (hc : constant? l = some c)
    (ih : SoundBelow g (cost .primary (⟨l, position⟩ :: ts))) :
    Sound g .primary (⟨l, position⟩ :: ts) := by
  intro room left v rest h
  rw [run_constant hc] at h
  obtain ⟨u, n, d, hn, hleft⟩ := ih _ _ (cost_lt_of_lt (Nat.lt_succ_self _)) h
  exact ⟨u, n, .constant hc d, hn, hleft⟩

theorem sound_sign {s : Spelling}
    (ih : SoundBelow g (cost .primary (⟨.operator s, position⟩ :: ts))) :
    Sound g .primary (⟨.operator s, position⟩ :: ts) := by
  intro room left v rest h
  have hlen : ts.length < (⟨.operator s, position⟩ :: ts : List Token).length :=
    Nat.lt_succ_self _
  rcases hs : UnaryOp.ofSpelling? s with _ | op
  · rw [run_notUnary hs] at h
    cases h
  · rw [run_unary hs] at h
    obtain ⟨e, ts₁, n₁, d₁, hn₁, hlen₁, h⟩ := ih.begin h (cost_lt_of_lt hlen) rfl
    obtain ⟨u₂, n₂, d₂, hn₂, rfl⟩ := ih _ _ (cost_lt_of_lt (by omega)) h
    exact ⟨u₂, _, .unary hs d₁ d₂, by omega, rfl⟩

theorem sound_bracket {p : Punctuation}
    (ih : SoundBelow g (cost .primary (⟨.punctuation p, position⟩ :: ts))) :
    Sound g .primary (⟨.punctuation p, position⟩ :: ts) := by
  intro room left v rest h
  have hlen : ts.length < (⟨.punctuation p, position⟩ :: ts : List Token).length :=
    Nat.lt_succ_self _
  by_cases hp : p = .openParen
  · subst hp
    rw [run_group] at h
    obtain ⟨e, ts₁, n₁, d₁, hn₁, hlen₁, h⟩ := ih.begin h (cost_lt_of_lt hlen) rfl
    obtain ⟨ts₂, hs, hrest⟩ := bind_eq_ok h
    obtain ⟨place, rfl⟩ := skip_eq_ok hs
    rw [List.length_cons] at hlen₁
    obtain ⟨u₂, n₂, d₂, hn₂, rfl⟩ := ih _ _ (cost_lt_of_lt (by omega)) hrest
    exact ⟨u₂, _, .group d₁ d₂, by omega, rfl⟩
  by_cases hb : p = .openBracket
  · subst hb
    rw [run_array] at h
    obtain ⟨e, ts₁, n₁, d₁, hn₁, hlen₁, h⟩ := ih.begin h (cost_lt_of_lt hlen) rfl
    obtain ⟨u₂, n₂, d₂, hn₂, rfl⟩ := ih _ _ (cost_lt_of_lt (by omega)) h
    obtain ⟨es, rfl⟩ := d₁.elements_eq_array
    exact ⟨u₂, _, .array d₁ d₂, by omega, rfl⟩
  by_cases hc : p = .openBrace
  · subst hc
    rw [run_hash] at h
    obtain ⟨e, ts₁, n₁, d₁, hn₁, hlen₁, h⟩ := ih.begin h (cost_lt_of_lt hlen) rfl
    obtain ⟨u₂, n₂, d₂, hn₂, rfl⟩ := ih _ _ (cost_lt_of_lt (by omega)) h
    obtain ⟨es, rfl⟩ := d₁.entries_eq_hash
    exact ⟨u₂, _, .hash d₁ d₂, by omega, rfl⟩
  rw [run_punctuation hp hb hc] at h
  cases h

theorem sound_word {s : String} (hc : constantWord? s = none)
    (ih : SoundBelow g (cost .primary (⟨.name s, position⟩ :: ts))) :
    Sound g .primary (⟨.name s, position⟩ :: ts) := by
  intro room left v rest h
  have hlen : ts.length < (⟨.name s, position⟩ :: ts : List Token).length := Nat.lt_succ_self _
  cases ho : nextIs .openParen ts
  · rw [run_name hc ho] at h
    obtain ⟨u, n, d, hn, hleft⟩ := ih _ _ (cost_lt_of_lt hlen) h
    exact ⟨u, n, .name hc (nextIs_eq_false.mp ho) d, hn, hleft⟩
  cases hk : g.known s
  · rw [run_unknown hc hk ho] at h
    cases h
  obtain ⟨place, ts, rfl⟩ := exists_of_nextIs ho
  rw [List.length_cons] at hlen
  rw [run_call hc hk ho] at h
  obtain ⟨e, ts₁, n₁, d₁, hn₁, hlen₁, h⟩ :=
    ih.begin h (cost_lt_of_lt (Nat.lt_of_succ_lt hlen)) rfl
  rw [List.drop_one, List.tail_cons] at hlen₁
  obtain ⟨u₂, n₂, d₂, hn₂, rfl⟩ := ih _ _ (cost_lt_of_lt (by omega)) h
  obtain ⟨es, rfl⟩ := d₁.elements_eq_array
  exact ⟨u₂, _, .call hc hk d₁ d₂, by omega, rfl⟩

end

theorem sound_primary (ih : SoundBelow g (cost .primary ts)) : Sound g .primary ts := by
  cases ts with
  | nil =>
    intro room left v rest h
    simp [run_nothing, Setting.refuse] at h
  | cons t ts =>
    obtain ⟨l, position⟩ := t
    cases l with
    | number n => exact sound_constant rfl ih
    | string s => exact sound_constant rfl ih
    | operator s => exact sound_sign ih
    | punctuation p => exact sound_bracket ih
    | name s =>
      rcases hc : constantWord? s with _ | c
      · exact sound_word hc ih
      · exact sound_constant (l := .name s) hc ih

theorem sound_accesses (ih : SoundBelow g (cost (.accesses e) ts)) : Sound g (.accesses e) ts := by
  intro room left v rest h
  cases hd : nextIs .dot ts
  · cases hb : nextIs .openBracket ts
    · rw [run_noAccess hd hb] at h
      cases h
      exact ⟨0, 0, .noAccess (nextIs_eq_false.mp hd) (nextIs_eq_false.mp hb), Nat.zero_le _, rfl⟩
    cases room with
    | zero =>
      rw [run_access_zero (.inr hb)] at h
      cases h
    | succ room =>
      obtain ⟨position, ts, rfl⟩ := exists_of_nextIs hb
      rw [run_index] at h
      obtain ⟨key, ts₁, n₁, d₁, hn₁, hlen₁, h⟩ :=
        ih.begin h (cost_lt_of_lt (Nat.lt_succ_self _)) rfl
      obtain ⟨ts₂, hs, hrest⟩ := bind_eq_ok h
      obtain ⟨place, rfl⟩ := skip_eq_ok hs
      rw [List.length_cons] at hlen₁
      obtain ⟨u₂, n₂, d₂, hn₂, rfl⟩ := ih _ _ (cost_lt_of_lt (by grind)) hrest
      exact ⟨_, _, .index d₁ d₂, by omega, by omega⟩
  · cases room with
    | zero =>
      rw [run_access_zero (.inl hd)] at h
      cases h
    | succ room =>
      obtain ⟨position, ts, rfl⟩ := exists_of_nextIs hd
      by_cases hm : ∃ member place rest, ts = ⟨.name member, place⟩ :: rest
      · obtain ⟨member, place, ts, rfl⟩ := hm
        cases ho : nextIs .openParen ts
        · rw [run_property ho] at h
          have hlen := Nat.lt_add_of_pos_right (n := ts.length) (show 0 < 2 by decide)
          obtain ⟨u, n, d, hn, rfl⟩ := ih _ _ (cost_lt_of_lt hlen) h
          exact ⟨_, _, .property (nextIs_eq_false.mp ho) d, by omega, by omega⟩
        · rw [run_method ho] at h
          cases h
      · rw [run_noMember fun member place rest hts => hm ⟨member, place, rest, hts⟩] at h
        cases h

theorem sound_operators {p : Nat} (ih : SoundBelow g (cost (.operators p e) ts)) :
    Sound g (.operators p e) ts := by
  intro room left v rest h
  by_cases ho : StartsWithOperator p (lexemesOf ts)
  · obtain ⟨s, op, hhead, hs, hp⟩ := ho
    obtain ⟨position, ts, rfl⟩ : ∃ position ts', ts = ⟨.operator s, position⟩ :: ts' := by
      obtain ⟨ls, hls⟩ := List.head?_eq_some_iff.mp hhead
      obtain ⟨position, ts', rfl, -⟩ := lexemesOf_eq_cons hls
      exact ⟨position, ts', rfl⟩
    have hf := filter_of_startsWithOperator hs hp
    by_cases hlevel : room < level op
    · obtain ⟨rfl, hl⟩ := eq_zero_of_lt_level hlevel
      rw [run_operator_zero hf hl] at h
      cases h
    · obtain ⟨room, rfl⟩ := Nat.exists_eq_add_of_le (Nat.le_of_not_lt hlevel)
      rw [run_operator hf] at h
      obtain ⟨right, ts₁, n₁, d₁, hn₁, hlen₁, h⟩ :=
        ih.begin h (cost_lt_of_lt (Nat.lt_succ_self _)) rfl
      obtain ⟨u₂, n₂, d₂, hn₂, rfl⟩ := ih _ _ (cost_lt_of_lt (by grind)) h
      exact ⟨_, _, .operator hs hp d₁ d₂, by omega, by omega⟩
  · rw [run_noOperator (filter_of_not_startsWithOperator ho)] at h
    cases h
    exact ⟨0, 0, .noOperator ho, Nat.zero_le _, rfl⟩

theorem sound_choices (ih : SoundBelow g (cost (.choices e) ts)) : Sound g (.choices e) ts := by
  intro room left v rest h
  cases hq : nextIs .question ts
  · rw [run_noChoice hq] at h
    cases h
    exact ⟨0, 0, .noChoice (nextIs_eq_false.mp hq), Nat.zero_le _, rfl⟩
  obtain ⟨position, ts, rfl⟩ := exists_of_nextIs hq
  cases room with
  | zero =>
    rw [run_choice_zero] at h
    cases h
  | succ room =>
    cases hc : nextIs .colon ts
    · rw [run_choice hc] at h
      obtain ⟨yes, ts₁, n₁, d₁, hn₁, hlen₁, h⟩ :=
        ih.begin h (cost_lt_of_lt (Nat.lt_succ_self _)) rfl
      cases ho : nextIs .colon ts₁
      · simp only [ho, Bool.false_eq_true, if_false] at h
        obtain ⟨v, ts₂, n₂, d₂, hn₂, -, h⟩ := ih.begin h (cost_lt_of_lt (by grind)) rfl
        cases h
        exact ⟨0, _, .openChoice (nextIs_eq_false.mp hc) d₁ (nextIs_eq_false.mp ho) d₂,
          by omega, rfl⟩
      · obtain ⟨place, ts₁, rfl⟩ := exists_of_nextIs ho
        simp only [ho, if_true, List.drop_one, List.tail_cons] at h
        rw [List.length_cons] at hlen₁
        obtain ⟨no, ts₂, n₂, d₂, hn₂, hlen₂, h⟩ := ih.begin h (cost_lt_of_lt (by grind)) rfl
        obtain ⟨v, ts₃, n₃, d₃, hn₃, -, h⟩ := ih.begin h (cost_lt_of_lt (by grind)) rfl
        cases h
        exact ⟨0, _, .choice (nextIs_eq_false.mp hc) d₁ d₂ d₃, by omega, rfl⟩
    · obtain ⟨place, ts, rfl⟩ := exists_of_nextIs hc
      rw [run_shortChoice] at h
      obtain ⟨no, ts₁, n₁, d₁, hn₁, hlen₁, h⟩ := ih.begin h (cost_lt_of_lt (by grind)) rfl
      obtain ⟨v, ts₂, n₂, d₂, hn₂, -, h⟩ := ih.begin h (cost_lt_of_lt (by grind)) rfl
      cases h
      exact ⟨0, _, .shortChoice d₁ d₂, by omega, rfl⟩

theorem sound_elements {close : Punctuation} {comma : Requirement} {trailing first : Bool}
    (ih : SoundBelow g (cost (.elements close comma trailing first) ts)) :
    Sound g (.elements close comma trailing first) ts := by
  intro room left v rest h
  cases hc : nextIs close ts
  · cases first with
    | true =>
      rw [run_firstElement hc] at h
      obtain ⟨e, ts₁, n₁, d₁, hn₁, hlen₁, h⟩ := ih.begin h (by simp [cost]) rfl
      obtain ⟨v, ts₂, n₂, d₂, hn₂, -, h⟩ := ih.begin h (cost_lt_of_lt hlen₁) rfl
      obtain ⟨es, rfl⟩ := d₂.elements_eq_array
      cases h
      exact ⟨0, _, .firstElement (nextIs_eq_false.mp hc) d₁ d₂, by omega, rfl⟩
    | false =>
      rw [run_element hc] at h
      obtain ⟨ts₁, hs, hrest⟩ := bind_eq_ok h
      obtain ⟨position, rfl⟩ := skip_eq_ok hs
      have hclose : close ≠ .comma := by
        rintro rfl
        simp at hc
      cases ht : trailing && nextIs close ts₁
      · simp only [ht, Bool.false_eq_true, if_false] at hrest
        obtain ⟨e, ts₂, n₁, d₁, hn₁, hlen₁, h⟩ :=
          ih.begin hrest (cost_lt_of_lt (Nat.lt_succ_self _)) rfl
        obtain ⟨v, ts₃, n₂, d₂, hn₂, -, h⟩ :=
          ih.begin h (cost_lt_of_lt (Nat.lt_succ_of_lt hlen₁)) rfl
        obtain ⟨es, rfl⟩ := d₂.elements_eq_array
        cases h
        refine ⟨0, _, .element hclose ?_ d₁ d₂, by omega, rfl⟩
        rintro ⟨rfl, hs'⟩
        simp [nextIs_eq_true.mpr hs'] at ht
      · simp only [ht, if_true] at hrest
        cases hrest
        obtain ⟨rfl, hn⟩ := Bool.and_eq_true_iff.mp ht
        obtain ⟨place, ts₂, rfl⟩ := exists_of_nextIs hn
        exact ⟨0, 0, .lastComma hclose, Nat.zero_le _, rfl⟩
  · rw [run_noElements hc] at h
    cases h
    obtain ⟨position, ts, rfl⟩ := exists_of_nextIs hc
    exact ⟨0, 0, .noElements, Nat.zero_le _, rfl⟩

theorem sound_entries {first : Bool} (ih : SoundBelow g (cost (.entries first) ts)) :
    Sound g (.entries first) ts := by
  intro room left v rest h
  cases hc : nextIs .closeBrace ts
  · cases first with
    | true =>
      rw [run_firstEntry hc] at h
      obtain ⟨⟨k, ts₁⟩, hk, hrest⟩ := bind_eq_ok h
      obtain ⟨l, position, colon, hl, rfl⟩ := keyed_eq_ok hk
      obtain ⟨e, ts₂, n₁, d₁, hn₁, hlen₁, h⟩ := ih.begin hrest (cost_lt_of_lt (by grind)) rfl
      obtain ⟨v, ts₃, n₂, d₂, hn₂, -, h⟩ := ih.begin h (cost_lt_of_lt (by grind)) rfl
      obtain ⟨es, rfl⟩ := d₂.entries_eq_hash
      cases h
      exact ⟨0, _, .firstEntry hl d₁ d₂, by omega, rfl⟩
    | false =>
      rw [run_entry hc] at h
      obtain ⟨ts₁, hs, hrest⟩ := bind_eq_ok h
      obtain ⟨position, rfl⟩ := skip_eq_ok hs
      cases hn : nextIs .closeBrace ts₁
      · simp only [hn, Bool.false_eq_true, if_false] at hrest
        obtain ⟨⟨k, ts₂⟩, hk, hentry⟩ := bind_eq_ok hrest
        obtain ⟨l, place, colon, hl, rfl⟩ := keyed_eq_ok hk
        obtain ⟨e, ts₃, n₁, d₁, hn₁, hlen₁, h⟩ := ih.begin hentry (cost_lt_of_lt (by grind)) rfl
        obtain ⟨v, ts₄, n₂, d₂, hn₂, -, h⟩ := ih.begin h (cost_lt_of_lt (by grind)) rfl
        obtain ⟨es, rfl⟩ := d₂.entries_eq_hash
        cases h
        exact ⟨0, _, .entry hl d₁ d₂, by omega, rfl⟩
      · simp only [hn, if_true] at hrest
        cases hrest
        obtain ⟨place, ts₂, rfl⟩ := exists_of_nextIs hn
        exact ⟨0, 0, .lastEntryComma, Nat.zero_le _, rfl⟩
  · rw [run_noEntries hc] at h
    cases h
    obtain ⟨position, ts, rfl⟩ := exists_of_nextIs hc
    exact ⟨0, 0, .noEntries, Nat.zero_le _, rfl⟩

/-- What the reader returns for a phrase, the grammar derives. -/
theorem sound (phrase : Phrase) (ts : List Token) : Sound g phrase ts := by
  induction hn : cost phrase ts using Nat.strongRecOn generalizing phrase ts with
  | _ n ih =>
    subst hn
    have below : SoundBelow g (cost phrase ts) := fun phrase' ts' h => ih _ h phrase' ts' rfl
    cases phrase with
    | expression p => exact sound_expression below
    | primary => exact sound_primary below
    | accesses e => exact sound_accesses below
    | operators p e => exact sound_operators below
    | choices e => exact sound_choices below
    | elements close comma trailing first => exact sound_elements below
    | entries first => exact sound_entries below

/-! ## Whole texts -/

theorem ofTokens_eq {known : String → Bool} {text : TokenList} :
    ofTokens known text = (do
      let (e, _, rest) ← run ⟨known, text.stop⟩ maxNesting (.expression 0) text.tokens
      match rest with
      | [] => return e
      | t :: ts =>
        (⟨known, text.stop⟩ : Setting).refuse (.unexpected (some t.lexeme)) (t :: ts)) := by
  rw [ofTokens, run]
  rcases expression ⟨known, text.stop⟩ maxNesting 0 text.tokens with _ | r <;> rfl

/-- What is read from a text is derived from its lexemes in the room there is. -/
theorem derives_of_ofText {known : String → Bool} {source : String} {e : Expr}
    (h : ofText known source = .ok e) :
    ∃ text need, Token.ofText source = .ok text ∧
      Derives known (.expression 0) (lexemesOf text.tokens) e [] 0 need ∧ need ≤ maxNesting := by
  unfold ofText tokens at h
  rcases ht : Token.ofText source with _ | text
  · simp [ht] at h
  simp only [ht] at h
  rcases ho : ofTokens known text with r | e'
  · rw [ho] at h
    cases r <;> cases h
  rw [ho] at h
  cases h
  rw [ofTokens_eq] at ho
  obtain ⟨⟨v, left, rest⟩, hr, ho⟩ := bind_eq_ok ho
  obtain ⟨used, need, d, hn, -⟩ := sound _ _ hr
  obtain rfl := d.used_eq_zero rfl
  cases rest with
  | nil =>
    cases ho
    exact ⟨text, need, rfl, d, hn⟩
  | cons t ts => cases ho

/-- A text whose lexemes are derived to be an expression is read as that expression, or
refused for its nesting if it needs more room than there is. -/
theorem ofText_of_derives {known : String → Bool} {source : String} {text : TokenList} {e : Expr}
    {need : Nat} (ht : Token.ofText source = .ok text)
    (d : Derives known (.expression 0) (lexemesOf text.tokens) e [] 0 need) :
    (need ≤ maxNesting → ofText known source = .ok e) ∧
      (¬ need ≤ maxNesting →
        ∃ position, ofText known source = .error (.fault .tooDeep position source)) := by
  have hr : Reads ⟨known, text.stop⟩ maxNesting (.expression 0) text.tokens e [] 0 need :=
    Derives.reads d rfl
  simp only [ofText, tokens, ht, ofTokens_eq]
  constructor
  · intro hn
    obtain ⟨⟨v, left, rest⟩, hv, rfl, -, hrest⟩ := hr.found hn
    obtain rfl := List.map_eq_nil_iff.mp hrest
    rw [hv]
    rfl
  · intro hn
    obtain ⟨position, hp⟩ := hr.tooDeep hn
    exact ⟨position, by rw [hp]; rfl⟩

/-- What is read from a text stays the same where more functions are known. -/
theorem ofText_mono {known known' : String → Bool} (hk : ∀ s, known s = true → known' s = true)
    {source : String} {e : Expr} (h : ofText known source = .ok e) :
    ofText known' source = .ok e := by
  obtain ⟨text, need, ht, d, hneed⟩ := derives_of_ofText h
  exact (ofText_of_derives ht (d.mono hk)).1 hneed

end Criteria.Expr
