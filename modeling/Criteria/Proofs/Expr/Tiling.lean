import Criteria.Proofs.Expr.Boundary

/-!
# The tokens of a text cover it

The places of the tokens cut a text into pieces, of which each starts at a token and ends where the
next one starts, or where the text ends. A piece alone has the one token that it was cut for, so
the lexemes share no characters and leave none out but blanks.
-/

namespace Criteria

open Text

/-! ## Bytes and slices -/

namespace Token

theorem byteLength_cons (c : Char) (cs : List Char) :
    byteLength (c :: cs) = c.utf8Size + byteLength cs := rfl

theorem byteLength_append (cs ds : List Char) :
    byteLength (cs ++ ds) = byteLength cs + byteLength ds := by
  induction cs with
  | nil => exact (Nat.zero_add _).symm
  | cons c cs ih => rw [List.cons_append, byteLength_cons, byteLength_cons, ih, Nat.add_assoc]

theorem byteLength_pos {cs : List Char} (h : cs ≠ []) : 0 < byteLength cs := by
  obtain ⟨c, cs, rfl⟩ := List.exists_cons_of_ne_nil h
  rw [byteLength_cons]
  exact Nat.add_pos_left c.utf8Size_pos _

theorem utf8ByteSize_ofList (cs : List Char) : (String.ofList cs).utf8ByteSize = byteLength cs := by
  induction cs with
  | nil => rfl
  | cons c cs ih =>
    have hsplit : String.ofList (c :: cs) = String.singleton c ++ String.ofList cs := by
      rw [String.singleton_eq_ofList, ← String.ofList_append, List.singleton_append]
    rw [hsplit, String.utf8ByteSize_append, String.utf8ByteSize_singleton, ih, byteLength_cons]

theorem isValid_of_split {cs ds : List Char} :
    String.Pos.Raw.IsValid (String.ofList (cs ++ ds)) ⟨byteLength cs⟩ := by
  rw [String.Pos.Raw.isValid_iff_exists_append]
  refine ⟨String.ofList cs, String.ofList ds, String.ofList_append, ?_⟩
  rw [← utf8ByteSize_ofList]
  rfl

theorem place_ne (k : Nat) (c : Char) (cs : List Char) :
    (⟨k⟩ : String.Pos.Raw) ≠ ⟨k + byteLength (c :: cs)⟩ := by
  intro h
  have hpos := byteLength_pos (List.cons_ne_nil c cs)
  have hk : k = k + byteLength (c :: cs) := congrArg String.Pos.Raw.byteIdx h
  omega

theorem extract_stop (piece rest : List Char) (k : Nat) :
    String.Pos.Raw.extract.go₂ (piece ++ rest) ⟨k⟩ ⟨k + byteLength piece⟩ = piece := by
  induction piece generalizing k with
  | nil =>
    cases rest with
    | nil => rfl
    | cons c rest => exact if_pos rfl
  | cons c piece ih =>
    refine (if_neg (place_ne k c piece)).trans (congrArg (c :: ·) ?_)
    rw [byteLength_cons, ← Nat.add_assoc]
    exact ih (k + c.utf8Size)

theorem extract_start (before piece : List Char) (k : Nat) (stop : String.Pos.Raw) :
    String.Pos.Raw.extract.go₁ (before ++ piece) ⟨k⟩ ⟨k + byteLength before⟩ stop =
      String.Pos.Raw.extract.go₂ piece ⟨k + byteLength before⟩ stop := by
  induction before generalizing k with
  | nil =>
    cases piece with
    | nil => rfl
    | cons c piece => exact if_pos rfl
  | cons c before ih =>
    refine (if_neg (place_ne k c before)).trans ?_
    rw [byteLength_cons, ← Nat.add_assoc]
    exact ih (k + c.utf8Size)

/-- The slice of a text between two places. -/
theorem extract_eq (before piece rest : List Char) :
    String.Pos.Raw.extract (String.ofList (before ++ (piece ++ rest))) ⟨byteLength before⟩
      ⟨byteLength before + byteLength piece⟩ = String.ofList piece := by
  cases piece with
  | nil => exact if_pos (Nat.le_refl _)
  | cons c piece =>
    have hpos := byteLength_pos (List.cons_ne_nil c piece)
    have hlt : ¬ byteLength before ≥ byteLength before + byteLength (c :: piece) := by omega
    have hgo := extract_start before (c :: piece ++ rest) 0
      ⟨byteLength before + byteLength (c :: piece)⟩
    rw [Nat.zero_add] at hgo
    unfold String.Pos.Raw.extract
    simp only [hlt, if_false, String.toList_ofList]
    exact congrArg String.ofList (hgo.trans (extract_stop (c :: piece) rest _))

end Token

/-! ## Pieces -/

section Piece

variable {c : Char} {x s : List Char} {l : Lexeme}

/-- A lexeme that is read in front of some text stands there without the text, and in front of
blanks. -/
theorem read_alone (h : Lexeme.read c (x ++ s) = .ok (l, x.length)) {r : List Char}
    (hr : ∀ d ∈ r, isBlank d = true) : Lexeme.read c (x ++ r) = .ok (l, x.length) := by
  apply read_swap h (Nat.le_refl _)
  · intro hc
    exact noNameChar_of_read hc h
  · exact apart_of_all hr
  · intro b
    exact readWords?_blanks hr

theorem Token.scan_blanks {r : List Char} (hr : ∀ d ∈ r, isBlank d = true) (position : Nat)
    (cs : List Char) : scan position (r ++ cs) = scan (position + byteLength r) cs := by
  induction r generalizing position with
  | nil => rfl
  | cons d r ih =>
    rw [List.cons_append, scan, if_pos (hr d (List.mem_cons_self ..)), byteLength_cons,
      ← Nat.add_assoc]
    exact ih (fun e he => hr e (List.mem_cons_of_mem d he)) _

theorem Token.scan_piece (hc : isBlank c = false)
    (h : Lexeme.read c (x ++ s) = .ok (l, x.length)) {r : List Char}
    (hr : ∀ d ∈ r, isBlank d = true) (position : Nat) :
    scan position (c :: x ++ r) =
      .ok ⟨[⟨l, position⟩], position + byteLength (c :: x ++ r)⟩ := by
  have hrest := scan_blanks hr (position + byteLength (c :: x)) []
  rw [List.append_nil, scan] at hrest
  rw [List.cons_append, scan, hc]
  simp only [read_alone h hr, List.take_left, List.drop_left, hrest]
  rw [← List.cons_append, byteLength_append, Nat.add_assoc]
  rfl

end Piece

/-- The places at which the lexemes of a text start, and the one at which the text ends. -/
def TokenList.places (text : TokenList) : List Nat :=
  text.tokens.map Token.position ++ [text.stop]

/-- The text that starts at a place is cut into pieces of one token each. -/
inductive Cut : Nat → List Char → TokenList → Prop
  | stop (position : Nat) : Cut position [] ⟨[], position⟩
  | token {position : Nat} {piece rest : List Char} {l : Lexeme} {text : TokenList} : piece ≠ [] →
      Token.scan 0 piece = .ok ⟨[⟨l, 0⟩], Token.byteLength piece⟩ →
      Cut (position + Token.byteLength piece) rest text →
      Cut position (piece ++ rest) ⟨⟨l, position⟩ :: text.tokens, text.stop⟩

/-- The text behind the blanks at its start is cut by its tokens. -/
theorem cut_of_scan {position : Nat} {cs : List Char} {text : TokenList}
    (h : Token.scan position cs = .ok text) :
    ∃ r rest, cs = r ++ rest ∧ (∀ d ∈ r, isBlank d = true) ∧
      Cut (position + Token.byteLength r) rest text := by
  induction hn : cs.length using Nat.strongRecOn generalizing cs position text with
  | _ n ih =>
    subst hn
    cases cs with
    | nil =>
      rw [Token.scan] at h
      cases h
      exact ⟨[], [], rfl, List.forall_mem_nil _, .stop position⟩
    | cons c cs =>
      rw [Token.scan] at h
      cases hc : isBlank c with
      | true =>
        rw [if_pos hc] at h
        obtain ⟨r, rest, rfl, hr, hcut⟩ := ih _ (Nat.lt_succ_self _) h rfl
        refine ⟨c :: r, rest, rfl, ?_, ?_⟩
        · intro d hd
          rcases List.mem_cons.mp hd with rfl | hd
          · exact hc
          · exact hr d hd
        · rw [Token.byteLength_cons, ← Nat.add_assoc]
          exact hcut
      | false =>
        simp only [hc, Bool.false_eq_true, if_false] at h
        rcases hread : Lexeme.read c cs with obstacle | ⟨l, n⟩
        · simp [hread] at h
        simp only [hread] at h
        rcases hscan : Token.scan (position + Token.byteLength (c :: cs.take n)) (cs.drop n)
          with e | text
        · simp [hscan] at h
        simp only [hscan] at h
        cases h
        have hlength : (cs.take n).length = n :=
          List.length_take_of_le (read_le hread)
        have hlt : (cs.drop n).length < (c :: cs).length := by
          rw [List.length_drop, List.length_cons]
          omega
        obtain ⟨r, rest, hrest, hr, hcut⟩ := ih _ hlt hscan rfl
        have halone : Lexeme.read c (cs.take n ++ cs.drop n) = .ok (l, (cs.take n).length) := by
          rw [List.take_append_drop, hlength]
          exact hread
        have hpiece := Token.scan_piece hc halone hr 0
        rw [Nat.zero_add] at hpiece
        refine ⟨[], c :: cs, rfl, List.forall_mem_nil _, ?_⟩
        have hcs : c :: cs = (c :: cs.take n ++ r) ++ rest := by
          rw [List.append_assoc, ← hrest, List.cons_append, List.take_append_drop]
        rw [hcs]
        refine .token (by simp) hpiece ?_
        rw [Token.byteLength_append, ← Nat.add_assoc]
        exact hcut

namespace Cut

variable {position : Nat} {cs : List Char} {text : TokenList} (h : Cut position cs text)

include h

theorem stop_eq : text.stop = position + Token.byteLength cs := by
  induction h with
  | stop position => rfl
  | token _ _ _ ih => rw [ih, Token.byteLength_append, Nat.add_assoc]

theorem head?_places : text.places.head? = some position := by
  cases h <;> rfl

theorem split_place {p : Nat} (hp : p ∈ text.places) :
    ∃ before behind, cs = before ++ behind ∧ p = position + Token.byteLength before := by
  induction h with
  | stop position =>
    refine ⟨[], [], rfl, ?_⟩
    exact List.mem_singleton.mp hp
  | @token position piece rest l text _ _ _ ih =>
    rcases List.mem_cons.mp hp with rfl | hp
    · exact ⟨[], piece ++ rest, rfl, rfl⟩
    · obtain ⟨before, behind, rfl, rfl⟩ := ih hp
      refine ⟨piece ++ before, behind, by rw [List.append_assoc], ?_⟩
      rw [Token.byteLength_append, Nat.add_assoc]

theorem increasing : text.places.Pairwise (· < ·) := by
  induction h with
  | stop position => exact List.pairwise_singleton ..
  | @token position piece rest l text hne _ hrest ih =>
    refine List.pairwise_cons.mpr ⟨?_, ih⟩
    intro p hp
    obtain ⟨before, behind, -, rfl⟩ := hrest.split_place hp
    have hpos := Token.byteLength_pos hne
    show position < _
    omega

theorem piece {i q : Nat} {t : Token} (ht : text.tokens[i]? = some t)
    (hq : text.places[i + 1]? = some q) :
    ∃ before piece behind, cs = before ++ (piece ++ behind) ∧
      t.position = position + Token.byteLength before ∧ q = t.position + Token.byteLength piece ∧
      Token.scan 0 piece = .ok ⟨[⟨t.lexeme, 0⟩], Token.byteLength piece⟩ := by
  induction h generalizing i with
  | stop position => cases ht
  | @token position piece rest l text _ hpiece hrest ih =>
    cases i with
    | zero =>
      cases ht
      refine ⟨[], piece, rest, rfl, rfl, ?_, hpiece⟩
      have hhead := hrest.head?_places
      rw [List.head?_eq_getElem?] at hhead
      exact Option.some.inj (hq.symm.trans hhead)
    | succ i =>
      obtain ⟨before, piece', behind, rfl, hposition, hend, hscan⟩ := ih ht hq
      refine ⟨piece ++ before, piece', behind, by rw [List.append_assoc], ?_, hend, hscan⟩
      rw [hposition, Token.byteLength_append, Nat.add_assoc]

end Cut

/-- What the places of its tokens say about a text. -/
structure TokenList.Tiles (text : TokenList) (source : String) : Prop where
  boundaries : ∀ p ∈ text.places, String.Pos.Raw.IsValid source ⟨p⟩
  increasing : text.places.Pairwise (· < ·)
  stops : text.stop = source.utf8ByteSize
  blanks : ∀ p ∈ text.places.head?,
    ∀ c ∈ (String.Pos.Raw.extract source 0 ⟨p⟩).toList, isBlank c = true
  pieces : ∀ i t q, text.tokens[i]? = some t → text.places[i + 1]? = some q →
    Token.ofText (String.Pos.Raw.extract source ⟨t.position⟩ ⟨q⟩) =
      .ok ⟨[⟨t.lexeme, 0⟩], q - t.position⟩

/-- The tokens of a text tile it. -/
theorem Token.tiles_ofText {source : String} {text : TokenList} (h : ofText source = .ok text) :
    text.Tiles source := by
  obtain ⟨r, rest, hsource, hr, hcut⟩ := cut_of_scan h
  rw [Nat.zero_add] at hcut
  have htext : source = String.ofList (r ++ rest) := by
    rw [← hsource, String.ofList_toList]
  constructor
  · intro p hp
    obtain ⟨before, behind, rfl, rfl⟩ := hcut.split_place hp
    rw [htext, ← byteLength_append, ← List.append_assoc]
    exact isValid_of_split
  · exact hcut.increasing
  · rw [hcut.stop_eq, htext, utf8ByteSize_ofList, byteLength_append]
  · intro p hp
    rw [hcut.head?_places] at hp
    cases hp
    have hslice := extract_eq [] r rest
    rw [show byteLength [] + byteLength r = byteLength r from Nat.zero_add _] at hslice
    rw [htext]
    intro c hc
    have hc' : c ∈ (String.ofList r).toList := hslice ▸ hc
    rw [String.toList_ofList] at hc'
    exact hr c hc'
  · intro i t q ht hq
    obtain ⟨before, piece, behind, rfl, hposition, hend, hscan⟩ := hcut.piece ht hq
    have hslice := extract_eq (r ++ before) piece behind
    rw [byteLength_append, ← hposition, ← hend] at hslice
    rw [htext, ← List.append_assoc, hslice, ofText, String.toList_ofList, hscan]
    rw [hend, Nat.add_sub_cancel_left]

/-- A blank of three bytes, words over a line feed, a numeral in front of two points, and a string
with a quote and a letter of two bytes in it. -/
theorem Token.tiles_ofText_mixed :
    ∃ text, ofText "\u3000a not\n in[1_0..2,'é\\'']" = .ok text ∧ text.tokens.length = 9 ∧
      text.Tiles "\u3000a not\n in[1_0..2,'é\\'']" := by
  have hlexed : Lexed "\u3000a not\n in[1_0..2,'é\\'']".toList
      [.name "a", .operator .notInWords, .punctuation .openBracket,
        .number (Numeral.toNumeric ⟨false, ['1', '0'], none, none⟩), .operator .doubleDot,
        .number (Numeral.toNumeric ⟨false, ['2'], none, none⟩), .punctuation .comma,
        .string "é'", .punctuation .closeBracket] := by
    have hchars : "\u3000a not\n in[1_0..2,'é\\'']".toList =
        ['\u3000', 'a', ' ', 'n', 'o', 't', '\n', ' ', 'i', 'n', '[', '1', '_', '0', '.', '.', '2',
          ',', '\'', 'é', '\\', '\'', '\'', ']'] := rfl
    rw [hchars]
    apply Lexed.blank rfl
    apply Lexed.lexeme rfl rfl
    apply Lexed.blank rfl
    iterate 8 apply Lexed.lexeme rfl rfl
    exact .nil
  obtain ⟨text, htext, htokens⟩ := hlexed.scan_eq 0
  have hlength := congrArg List.length htokens
  rw [List.length_map] at hlength
  exact ⟨text, htext, hlength, tiles_ofText htext⟩

end Criteria
