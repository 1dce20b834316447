import Criteria.Proofs.Expr.Cursor
import Criteria.Proofs.Expr.Tiling

/-!
# Where the fault of a text stands

A fault has a place in the text. Where the text has tokens it is the place of one of them or of the
end, as the reader refuses a text at tokens only. Where it has none it is the place at which no
lexeme stands. Everything in front of that place is a blank or belongs to a lexeme that was read
with the characters behind it in sight, so that there is no such place before it.
-/

namespace Criteria

open Text

namespace Token

/-! ## What is passed before an obstacle -/

/-- From a text at one place the scanner comes to what is left of it at another place, over blanks
and over the lexemes of some tokens. -/
inductive Passes : Nat → List Char → List Token → Nat → List Char → Prop
  | done (position : Nat) (cs : List Char) : Passes position cs [] position cs
  | blank {position stop : Nat} {c : Char} {cs rest : List Char} {ts : List Token} :
      isBlank c = true → Passes (position + c.utf8Size) cs ts stop rest →
      Passes position (c :: cs) ts stop rest
  | token {position stop : Nat} {c : Char} {word cs rest : List Char} {l : Lexeme}
      {ts : List Token} : isBlank c = false →
      Lexeme.read c (word ++ cs) = .ok (l, word.length) →
      Passes (position + byteLength (c :: word)) cs ts stop rest →
      Passes position (c :: word ++ cs) (⟨l, position⟩ :: ts) stop rest

/-- The text starts with a character at which no lexeme stands. -/
def Stuck (obstacle : Lexeme.Obstacle) (cs : List Char) : Prop :=
  ∃ c rest, cs = c :: rest ∧ isBlank c = false ∧ Lexeme.read c rest = .error obstacle

theorem Passes.split {position stop : Nat} {cs rest : List Char} {ts : List Token}
    (h : Passes position cs ts stop rest) :
    ∃ before, cs = before ++ rest ∧ stop = position + byteLength before := by
  induction h with
  | done position cs => exact ⟨[], rfl, rfl⟩
  | @blank position stop c cs rest ts _ _ ih =>
    obtain ⟨before, rfl, rfl⟩ := ih
    exact ⟨c :: before, rfl, by rw [byteLength_cons, Nat.add_assoc]⟩
  | @token position stop c word cs rest l ts _ _ _ ih =>
    obtain ⟨before, rfl, rfl⟩ := ih
    refine ⟨c :: word ++ before, (List.append_assoc ..).symm, ?_⟩
    rw [byteLength_append, Nat.add_assoc]

theorem scan_token {position : Nat} {c : Char} {word cs : List Char} {l : Lexeme}
    (hc : isBlank c = false) (hread : Lexeme.read c (word ++ cs) = .ok (l, word.length)) :
    scan position (c :: word ++ cs) =
      (scan (position + byteLength (c :: word)) cs).map fun text =>
        { text with tokens := ⟨l, position⟩ :: text.tokens } := by
  rw [List.cons_append, scan, hc]
  simp only [Bool.false_eq_true, if_false, hread, List.take_left, List.drop_left]
  rcases scan (position + byteLength (c :: word)) cs with _ | text <;> rfl

theorem Passes.scan_eq_error {position stop : Nat} {cs rest : List Char} {ts : List Token}
    {obstacle : Lexeme.Obstacle} (h : Passes position cs ts stop rest)
    (hstuck : Stuck obstacle rest) : scan position cs = .error (obstacle, stop) := by
  induction h with
  | done position cs =>
    obtain ⟨c, rest, rfl, hc, hread⟩ := hstuck
    rw [scan, hc]
    simp only [Bool.false_eq_true, if_false, hread]
  | blank hc _ ih =>
    rw [scan, if_pos hc]
    exact ih hstuck
  | token hc hread _ ih =>
    rw [scan_token hc hread, ih hstuck]
    rfl

theorem exists_passes {position p : Nat} {cs : List Char} {obstacle : Lexeme.Obstacle}
    (h : scan position cs = .error (obstacle, p)) :
    ∃ ts rest, Passes position cs ts p rest ∧ Stuck obstacle rest := by
  induction hn : cs.length using Nat.strongRecOn generalizing cs position with
  | _ n ih =>
    subst hn
    cases cs with
    | nil =>
      rw [scan] at h
      cases h
    | cons c cs =>
      cases hc : isBlank c with
      | true =>
        rw [scan, if_pos hc] at h
        obtain ⟨ts, rest, hpasses, hstuck⟩ := ih _ (Nat.lt_succ_self _) h rfl
        exact ⟨ts, rest, .blank hc hpasses, hstuck⟩
      | false =>
        rcases hread : Lexeme.read c cs with obstacle' | ⟨l, n⟩
        · rw [scan, hc] at h
          simp only [Bool.false_eq_true, if_false, hread] at h
          cases h
          exact ⟨[], c :: cs, .done .., ⟨c, cs, rfl, hc, hread⟩⟩
        · have hlength : (cs.take n).length = n := List.length_take_of_le (read_le hread)
          have htoken : Lexeme.read c (cs.take n ++ cs.drop n) = .ok (l, (cs.take n).length) := by
            rw [List.take_append_drop, hlength]
            exact hread
          have hcs : c :: cs = c :: cs.take n ++ cs.drop n := by
            rw [List.cons_append, List.take_append_drop]
          rw [hcs, scan_token hc htoken] at h
          rcases hscan : scan (position + byteLength (c :: cs.take n)) (cs.drop n) with e | text <;>
            rw [hscan] at h <;> cases h
          have hlt : (cs.drop n).length < (c :: cs).length := by
            rw [List.length_drop, List.length_cons]
            omega
          obtain ⟨ts, rest, hpasses, hstuck⟩ := ih _ hlt hscan rfl
          rw [hcs]
          exact ⟨⟨l, position⟩ :: ts, rest, .token hc htoken hpasses, hstuck⟩

end Token

namespace Expr

/-! ## The tokens that are refused -/

theorem place_mem_places (known : String → Bool) {text : TokenList} {rest : List Token}
    (h : rest <:+ text.tokens) :
    (⟨known, text.stop⟩ : Setting).place rest ∈ text.places := by
  cases rest with
  | nil => exact List.mem_append_right _ (List.mem_singleton_self _)
  | cons t rest =>
    exact List.mem_append_left _ (List.mem_map_of_mem (h.subset (List.mem_cons_self ..)))

theorem mem_places_of_within {known : String → Bool} {text : TokenList} {f : Fault} {p : Nat}
    (h : (Refusal.fault f p).Within ⟨known, text.stop⟩ text.tokens) : p ∈ text.places := by
  cases h with
  | fault f hrest => exact place_mem_places known hrest

theorem mem_places_of_refused {known : String → Bool} {text : TokenList} {f : Fault} {p : Nat}
    (h : ofTokens known text = .error (.fault f p)) : p ∈ text.places := by
  rw [ofTokens_eq_whole] at h
  have hsettles := Call.settles ⟨known, text.stop⟩ ⟨maxNesting, .expression 0, text.tokens⟩
  rcases hrun : (⟨maxNesting, .expression 0, text.tokens⟩ : Call).run ⟨known, text.stop⟩ with r | a <;>
    rw [hrun] at h hsettles <;> cases hsettles
  · next hwithin =>
    cases h
    exact mem_places_of_within hwithin
  · next hbehind =>
    obtain ⟨v, left, rest⟩ := a
    cases rest with
    | nil => cases h
    | cons t rest =>
      cases h
      exact place_mem_places known hbehind.suffix

/-! ## Faults of a text -/

/-- Where the fault `f` of a text stands. -/
structure Stands (source : String) (f : Fault) (position : Nat) : Prop where
  boundary : String.Pos.Raw.IsValid source ⟨position⟩
  le_size : position ≤ source.utf8ByteSize
  token : ∀ text, Token.ofText source = .ok text → position ∈ text.places
  obstacle : ∀ obstacle p, Token.ofText source = .error (obstacle, p) →
    f = .lexical obstacle ∧ p = position ∧
      ∃ ts rest, Token.Passes 0 source.toList ts position rest ∧ Token.Stuck obstacle rest

theorem stands_of_obstacle {source : String} {obstacle : Lexeme.Obstacle} {position : Nat}
    (h : Token.ofText source = .error (obstacle, position)) :
    Stands source (.lexical obstacle) position := by
  obtain ⟨ts, rest, hpasses, hstuck⟩ := Token.exists_passes h
  obtain ⟨before, hsource, hposition⟩ := hpasses.split
  rw [Nat.zero_add] at hposition
  have htext : source = String.ofList (before ++ rest) := by
    rw [← hsource, String.ofList_toList]
  constructor
  · rw [htext, hposition]
    exact Token.isValid_of_split
  · rw [htext, hposition, Token.utf8ByteSize_ofList, Token.byteLength_append]
    exact Nat.le_add_right ..
  · intro text htokens
    rw [h] at htokens
    cases htokens
  · intro obstacle' p herror
    rw [h] at herror
    cases herror
    exact ⟨rfl, rfl, ts, rest, hpasses, hstuck⟩

theorem stands_of_mem_places {source : String} {text : TokenList} {f : Fault} {position : Nat}
    (h : Token.ofText source = .ok text) (hp : position ∈ text.places) :
    Stands source f position := by
  obtain ⟨r, rest, hsource, hr, hcut⟩ := cut_of_scan h
  obtain ⟨before, behind, rfl, rfl⟩ := hcut.split_place hp
  have htext : source = String.ofList (r ++ before ++ behind) := by
    rw [List.append_assoc, ← hsource, String.ofList_toList]
  rw [Nat.zero_add, ← Token.byteLength_append]
  constructor
  · rw [htext]
    exact Token.isValid_of_split
  · rw [htext, Token.utf8ByteSize_ofList, Token.byteLength_append (r ++ before)]
    exact Nat.le_add_right ..
  · intro text' htokens
    rw [h] at htokens
    cases htokens
    rw [Token.byteLength_append, ← Nat.zero_add (Token.byteLength r)]
    exact hp
  · intro obstacle p herror
    rw [h] at herror
    cases herror

/-- A fault names the text that was read, and its place is that of a token or of the first
character at which no lexeme stands. -/
theorem ofText_fault {known : String → Bool} {source text : String} {f : Fault} {position : Nat}
    (h : ofText known source = .error (.fault f position text)) :
    text = source ∧ Stands source f position := by
  unfold ofText tokens at h
  rcases htokens : Token.ofText source with ⟨obstacle, p⟩ | tokens
  · simp only [htokens] at h
    cases h
    exact ⟨rfl, stands_of_obstacle htokens⟩
  · simp only [htokens] at h
    rcases hread : ofTokens known tokens with (⟨f', p⟩ | name) | e <;> simp only [hread] at h <;>
      cases h
    exact ⟨rfl, stands_of_mem_places htokens (mem_places_of_refused hread)⟩

/-- A letter of two bytes, an operator, and a string without an end. -/
theorem ofText_fault_unclosed :
    ofText (fun _ => false) "é + 'x" = .error (.fault (.lexical .unclosedString) 5 "é + 'x") ∧
      Stands "é + 'x" (.lexical .unclosedString) 5 := by
  have hpasses : Token.Passes 0 ['é', ' ', '+', ' ', '\'', 'x']
      [⟨.name "é", 0⟩, ⟨.operator .plus, 3⟩] 5 ['\'', 'x'] := by
    refine @Token.Passes.token _ _ _ [] _ _ _ _ rfl rfl ?_
    apply Token.Passes.blank rfl
    refine @Token.Passes.token _ _ _ [] _ _ _ _ rfl rfl ?_
    apply Token.Passes.blank rfl
    exact .done ..
  have hstuck : Token.Stuck .unclosedString ['\'', 'x'] := ⟨_, _, rfl, rfl, rfl⟩
  have hscan : Token.ofText "é + 'x" = .error (.unclosedString, 5) := hpasses.scan_eq_error hstuck
  have h : ofText (fun _ => false) "é + 'x" =
      .error (.fault (.lexical .unclosedString) 5 "é + 'x") := by
    simp only [ofText, tokens, hscan]
  exact ⟨h, (ofText_fault h).2⟩

end Expr

end Criteria
