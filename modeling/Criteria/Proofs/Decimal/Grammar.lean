import Criteria.Proofs.Expr.Lexing

/-!
# The grammar of numerals

A numeral is a sign, which may be missing, a mantissa and perhaps an exponent. The mantissa is made
of digits, perhaps with a point among them or at one of their ends; the exponent is made of a mark,
perhaps a sign, and digits. `Numeral.read?` takes texts apart by looking for the mark, the point and
the signs; it accepts exactly the texts of this grammar and returns their parts.
-/

namespace Criteria

open Text

/-! ## Blanks around a text -/

namespace Text

theorem trimStart_append {pre cs : List Char} (h : ∀ c ∈ pre, isBlank c = true) :
    trimStart (pre ++ cs) = trimStart cs :=
  List.dropWhile_append_of_pos h

theorem trimStart_of_noBlank {t cs : List Char} (ht : ∀ c ∈ t, isBlank c = false)
    (hne : t ≠ []) : trimStart (t ++ cs) = t ++ cs := by
  obtain ⟨c, t, rfl⟩ := List.exists_cons_of_ne_nil hne
  simp [trimStart, ht c (List.mem_cons_self ..)]

/-- The text `cs` is `t`, perhaps with blanks before and behind it. -/
def Padded (cs t : List Char) : Prop :=
  ∃ pre post, cs = pre ++ (t ++ post) ∧ (∀ c ∈ pre, isBlank c = true) ∧
    ∀ c ∈ post, isBlank c = true

theorem padded_self (t : List Char) : Padded t t :=
  ⟨[], [], by simp, List.forall_mem_nil _, List.forall_mem_nil _⟩

/-- Blanks are all that is taken away from a text. -/
theorem padded_trim (cs : List Char) : Padded cs (trim cs) := by
  have htake {ds : List Char} : ∀ c ∈ ds.takeWhile isBlank, isBlank c = true :=
    List.all_eq_true.mp List.all_takeWhile
  obtain ⟨tail, htail⟩ : ∃ tail, tail = (trimStart cs).reverse := ⟨_, rfl⟩
  refine ⟨cs.takeWhile isBlank, (tail.takeWhile isBlank).reverse, ?_, htake, ?_⟩
  · have hend : trim cs ++ (tail.takeWhile isBlank).reverse = trimStart cs := by
      rw [trim, ← htail, trimStart, ← List.reverse_append, List.takeWhile_append_dropWhile, htail,
        List.reverse_reverse]
    rw [hend, trimStart, List.takeWhile_append_dropWhile]
  · intro c hc
    exact htake c (List.mem_reverse.mp hc)

/-- All blanks around a text without blanks are taken away. -/
theorem Padded.trim_eq {cs t : List Char} (h : Padded cs t) (ht : ∀ c ∈ t, isBlank c = false)
    (hne : t ≠ []) : trim cs = t := by
  obtain ⟨pre, post, rfl, hpre, hpost⟩ := h
  have hpost' : ∀ c ∈ post.reverse, isBlank c = true := fun c hc => hpost c (List.mem_reverse.mp hc)
  have ht' : ∀ c ∈ t.reverse, isBlank c = false := fun c hc => ht c (List.mem_reverse.mp hc)
  have hend : trimStart t.reverse = t.reverse := by
    rw [← List.append_nil t.reverse, trimStart_of_noBlank ht' (List.reverse_ne_nil_iff.mpr hne)]
  rw [trim, trimStart_append hpre, trimStart_of_noBlank ht hne, List.reverse_append,
    trimStart_append hpost', hend, List.reverse_reverse]

end Text

/-! ## The grammar -/

/-- A sign, which may be missing, and whether it is a minus. -/
inductive SignMark : List Char → Bool → Prop
  | absent : SignMark [] false
  | plus : SignMark ['+'] false
  | minus : SignMark ['-'] true

theorem Decimal.signMark_sign (negative : Bool) : SignMark (sign negative) negative := by
  cases negative with
  | false => exact .absent
  | true => exact .minus

/-- Digits with or without a point, and what stands before and behind it. -/
inductive Mantissa : List Char → List Char → Option (List Char) → Prop
  | whole {whole : List Char} : IsDigits whole → Mantissa whole whole none
  | point {whole fraction : List Char} : IsDigits whole →
      (∀ c ∈ fraction, isAsciiDigit c = true) →
      Mantissa (whole ++ '.' :: fraction) whole (some fraction)
  | fraction {fraction : List Char} : IsDigits fraction →
      Mantissa ('.' :: fraction) [] (some fraction)

/-- An exponent, which may be missing, and its value. -/
inductive Exponent : List Char → Option Int → Prop
  | absent : Exponent [] none
  | marked {mark : Char} {sign digits : List Char} {negative : Bool} : mark = 'e' ∨ mark = 'E' →
      SignMark sign negative → IsDigits digits →
      Exponent (mark :: (sign ++ digits)) (some (Written.exponentValue (negative, digits)))

/-- The text of a numeral. -/
inductive IsNumeral : List Char → Numeral → Prop
  | intro {sign mantissa tail whole : List Char} {fraction : Option (List Char)}
      {exponent : Option Int} {negative : Bool} : SignMark sign negative →
      Mantissa mantissa whole fraction → Exponent tail exponent →
      IsNumeral (sign ++ (mantissa ++ tail)) ⟨negative, whole, fraction, exponent⟩

theorem isDigits_iff {cs : List Char} :
    IsDigits cs ↔ (!cs.isEmpty && cs.all isAsciiDigit) = true := by
  simp only [Bool.and_eq_true, Bool.not_eq_true', List.isEmpty_eq_false_iff, List.all_eq_true]
  exact ⟨fun h => ⟨h.ne_nil, h.digit⟩, fun h => ⟨h.1, h.2⟩⟩

namespace Numeral

/-! ## Where texts are split -/

theorem splitAt_of_none {p : Char → Bool} {cs : List Char} (h : ∀ c ∈ cs, p c = false) :
    splitAt p cs = (cs, none) := by
  have hkept : ∀ c ∈ cs, (!p c) = true := fun c hc => by rw [h c hc]; rfl
  rw [← List.append_nil cs, splitAt, List.takeWhile_append_of_pos hkept,
    List.dropWhile_append_of_pos hkept]
  rfl

theorem splitAt_append {p : Char → Bool} {cs : List Char} (h : ∀ c ∈ cs, p c = false) {c : Char}
    (hc : p c = true) (rest : List Char) : splitAt p (cs ++ c :: rest) = (cs, some rest) := by
  have hkept : ∀ c ∈ cs, (!p c) = true := fun c hc => by rw [h c hc]; rfl
  simp [splitAt, List.takeWhile_append_of_pos hkept, List.dropWhile_append_of_pos hkept, hc]

/-- A text is split at the first character that satisfies `p`, or not at all. -/
theorem splitAt_cases (p : Char → Bool) (cs : List Char) :
    splitAt p cs = (cs, none) ∨
      ∃ before c rest, p c = true ∧ cs = before ++ c :: rest ∧
        splitAt p cs = (before, some rest) := by
  have hbefore : ∀ c ∈ cs.takeWhile (!p ·), p c = false := by
    intro c hc
    simpa using List.all_eq_true.mp List.all_takeWhile c hc
  have hcs := (List.takeWhile_append_dropWhile (p := (!p ·)) (l := cs)).symm
  cases hdrop : cs.dropWhile (!p ·) with
  | nil =>
    rw [hdrop, List.append_nil] at hcs
    left
    exact splitAt_of_none (hcs ▸ hbefore)
  | cons c rest =>
    have hc : p c = true := by
      have hhead := List.head?_dropWhile_not (!p ·) cs
      rw [hdrop] at hhead
      simpa using hhead
    rw [hdrop] at hcs
    right
    refine ⟨_, c, rest, hc, hcs, ?_⟩
    rw [hcs, splitAt_append hbefore hc, ← hcs]

/-- A text that starts with no sign. -/
def Unsigned (cs : List Char) : Prop := ∀ c ∈ cs.head?, c ≠ '+' ∧ c ≠ '-'

theorem splitSign_append {sign : List Char} {negative : Bool} (h : SignMark sign negative)
    {cs : List Char} (hcs : Unsigned cs) : splitSign (sign ++ cs) = (negative, cs) := by
  cases h with
  | plus => rfl
  | minus => rfl
  | absent =>
    cases cs with
    | nil => rfl
    | cons c cs =>
      obtain ⟨hplus, hminus⟩ := hcs c rfl
      unfold splitSign
      split
      · next heq => exact absurd (List.cons.inj heq).1 hminus
      · next heq => exact absurd (List.cons.inj heq).1 hplus
      · rfl

theorem exists_splitSign (cs : List Char) :
    ∃ sign, SignMark sign (splitSign cs).1 ∧ cs = sign ++ (splitSign cs).2 := by
  unfold splitSign
  split
  · exact ⟨['-'], .minus, rfl⟩
  · exact ⟨['+'], .plus, rfl⟩
  · exact ⟨[], .absent, rfl⟩

theorem unsigned_of_isDigits {digits : List Char} (h : IsDigits digits) (cs : List Char) :
    Unsigned (digits ++ cs) := by
  intro c hc
  have hdigit : isAsciiDigit c = true := by
    obtain ⟨d, ds, rfl⟩ := List.exists_cons_of_ne_nil h.ne_nil
    obtain rfl : d = c := Option.some.inj hc
    exact h.digit d (List.mem_cons_self ..)
  constructor
  · rintro rfl
    cases hdigit
  · rintro rfl
    cases hdigit

/-! ## The parts -/

theorem signedInt?_eq_some_iff {cs : List Char} {k : Int} :
    signedInt? cs = some k ↔ ∃ sign negative digits, SignMark sign negative ∧ IsDigits digits ∧
      cs = sign ++ digits ∧ Written.exponentValue (negative, digits) = k := by
  constructor
  · intro h
    obtain ⟨sign, hsign, hcs⟩ := exists_splitSign cs
    simp only [signedInt?] at h
    split at h
    · next hdigits =>
      exact ⟨sign, _, _, hsign, isDigits_iff.mpr hdigits, hcs, Option.some.inj h⟩
    · cases h
  · rintro ⟨sign, negative, digits, hsign, hdigits, rfl, rfl⟩
    have hsplit : splitSign (sign ++ digits) = (negative, digits) := by
      simpa using splitSign_append hsign (unsigned_of_isDigits hdigits [])
    simp only [signedInt?, hsplit, isDigits_iff.mp hdigits, if_true]
    rfl

theorem not_point_of_digit {c : Char} (h : isAsciiDigit c = true) : (c == '.') = false := by
  rw [beq_eq_false_iff_ne]
  rintro rfl
  cases h

/-- What is asked of the texts before and behind a point. -/
theorem sides_iff {whole fraction : List Char} :
    (whole.all isAsciiDigit && fraction.all isAsciiDigit && !(whole ++ fraction).isEmpty) = true ↔
      (∀ c ∈ whole, isAsciiDigit c = true) ∧ (∀ c ∈ fraction, isAsciiDigit c = true) ∧
        (whole ≠ [] ∨ fraction ≠ []) := by
  simp only [Bool.and_eq_true, List.all_eq_true, Bool.not_eq_true', List.isEmpty_eq_false_iff,
    ne_eq, List.append_eq_nil_iff, Decidable.not_and_iff_not_or_not, and_assoc]

theorem mantissa?_eq_some_iff {cs whole : List Char} {fraction : Option (List Char)} :
    mantissa? cs = some (whole, fraction) ↔ Mantissa cs whole fraction := by
  constructor
  · intro h
    rcases splitAt_cases (· == '.') cs with hsplit | ⟨before, c, rest, hc, hcs, hsplit⟩
    · simp only [mantissa?, hsplit] at h
      split at h
      · next hsides =>
        cases h
        obtain ⟨hwhole, -, hne⟩ := sides_iff.mp hsides
        exact .whole ⟨by simpa using hne, hwhole⟩
      · cases h
    · simp only [mantissa?, hsplit] at h
      split at h
      · next hsides =>
        cases h
        obtain ⟨hwhole, hfraction, hne⟩ := sides_iff.mp hsides
        obtain rfl : c = '.' := eq_of_beq hc
        rw [hcs]
        cases whole with
        | nil => exact .fraction ⟨by simpa using hne, hfraction⟩
        | cons d whole => exact .point ⟨List.cons_ne_nil _ _, hwhole⟩ hfraction
      · cases h
  · intro h
    cases h with
    | whole hwhole =>
      have hsplit := splitAt_of_none fun c hc => not_point_of_digit (hwhole.digit c hc)
      rw [mantissa?, hsplit]
      exact if_pos (sides_iff.mpr ⟨hwhole.digit, by simp, .inl hwhole.ne_nil⟩)
    | @point whole fraction hwhole hfraction =>
      have hpoint : ∀ c ∈ whole, (c == '.') = false :=
        fun c hc => not_point_of_digit (hwhole.digit c hc)
      rw [mantissa?, splitAt_append hpoint (beq_self_eq_true '.')]
      exact if_pos (sides_iff.mpr ⟨hwhole.digit, hfraction, .inl hwhole.ne_nil⟩)
    | @fraction fraction hfraction =>
      have hsplit : splitAt (· == '.') ('.' :: fraction) = ([], some fraction) :=
        @splitAt_append (· == '.') [] (by simp) '.' (beq_self_eq_true '.') fraction
      rw [mantissa?, hsplit]
      exact if_pos (sides_iff.mpr ⟨by simp, hfraction.digit, .inr hfraction.ne_nil⟩)

end Numeral

namespace Mantissa

variable {cs whole : List Char} {fraction : Option (List Char)} (h : Mantissa cs whole fraction)

include h

theorem ne_nil : cs ≠ [] := by
  cases h with
  | whole hwhole => exact hwhole.ne_nil
  | point hwhole _ => simp
  | fraction _ => simp

theorem chars : ∀ c ∈ cs, isAsciiDigit c = true ∨ c = '.' := by
  intro c hc
  cases h with
  | whole hwhole => exact .inl (hwhole.digit c hc)
  | point hwhole hfraction =>
    rcases List.mem_append.mp hc with hc | hc
    · exact .inl (hwhole.digit c hc)
    · exact (List.mem_cons.mp hc).symm.imp_left (hfraction c)
  | fraction hfraction => exact (List.mem_cons.mp hc).symm.imp_left (hfraction.digit c)

/-- The mark of an exponent is no part of it. -/
theorem not_mark : ∀ c ∈ cs, (c == 'e' || c == 'E') = false := by
  intro c hc
  rw [Bool.eq_false_iff]
  intro hmark
  rcases Bool.or_eq_true_iff.mp hmark with hmark | hmark <;> obtain rfl := eq_of_beq hmark <;>
    rcases h.chars _ hc with hc | hc <;> cases hc

theorem unsigned (tail : List Char) : Numeral.Unsigned (cs ++ tail) := by
  obtain ⟨d, ds, rfl⟩ := List.exists_cons_of_ne_nil h.ne_nil
  rintro c ⟨⟩
  have hd := h.chars d (List.mem_cons_self ..)
  constructor
  · rintro rfl
    rcases hd with hd | hd <;> cases hd
  · rintro rfl
    rcases hd with hd | hd <;> cases hd

end Mantissa

namespace Numeral

/-! ## Whole numerals -/

section

variable {cs body mantissa text : List Char} {negative : Bool}
  (hsign : splitSign cs = (negative, body))

include hsign

theorem read?_of_unmarked
    (hmark : splitAt (fun c => c == 'e' || c == 'E') body = (mantissa, none)) :
    read? cs = (mantissa? mantissa).map fun (whole, fraction) =>
      ⟨negative, whole, fraction, none⟩ := by
  rw [read?, hsign]
  dsimp only
  rw [hmark]
  cases mantissa? mantissa <;> rfl

theorem read?_of_marked
    (hmark : splitAt (fun c => c == 'e' || c == 'E') body = (mantissa, some text)) :
    read? cs = (mantissa? mantissa).bind fun (whole, fraction) =>
      (signedInt? text).map fun exponent => ⟨negative, whole, fraction, some exponent⟩ := by
  rw [read?, hsign]
  dsimp only
  rw [hmark]
  cases mantissa? mantissa with
  | none => rfl
  | some parts =>
    dsimp only [Option.bind_eq_bind, Option.bind_some]
    cases signedInt? text <;> rfl

end

/-- A text is read as a numeral exactly if it is the text of that numeral. -/
theorem read?_eq_some_iff {cs : List Char} {n : Numeral} : read? cs = some n ↔ IsNumeral cs n := by
  constructor
  · intro h
    obtain ⟨sign, hsign, hcs⟩ := exists_splitSign cs
    obtain ⟨negative, body, hbody⟩ : ∃ negative body, splitSign cs = (negative, body) := ⟨_, _, rfl⟩
    rw [hbody] at hsign hcs
    rcases splitAt_cases (fun c => c == 'e' || c == 'E') body with
      hmark | ⟨before, mark, rest, hc, hrest, hmark⟩
    · rw [read?_of_unmarked hbody hmark, Option.map_eq_some_iff] at h
      obtain ⟨⟨whole, fraction⟩, hmantissa, rfl⟩ := h
      rw [hcs, ← List.append_nil body]
      exact .intro hsign (mantissa?_eq_some_iff.mp hmantissa) .absent
    · rw [read?_of_marked hbody hmark, Option.bind_eq_some_iff] at h
      obtain ⟨⟨whole, fraction⟩, hmantissa, h⟩ := h
      obtain ⟨exponent, hexponent, rfl⟩ := Option.map_eq_some_iff.mp h
      obtain ⟨sign', negative', digits, hsign', hdigits, rfl, rfl⟩ :=
        signedInt?_eq_some_iff.mp hexponent
      rw [hcs, hrest]
      exact .intro hsign (mantissa?_eq_some_iff.mp hmantissa)
        (.marked (by simpa using hc) hsign' hdigits)
  · intro h
    cases h with
    | @intro sign mantissa tail whole fraction exponent negative hsign hmantissa htail =>
      have hbody := splitSign_append hsign (hmantissa.unsigned tail)
      cases htail with
      | absent =>
        have hmark := splitAt_of_none hmantissa.not_mark
        rw [List.append_nil] at hbody ⊢
        rw [read?_of_unmarked hbody hmark, mantissa?_eq_some_iff.mpr hmantissa]
        rfl
      | @marked mark sign' digits negative' hc hsign' hdigits =>
        have hmark := splitAt_append hmantissa.not_mark (c := mark) (by simpa using hc)
          (sign' ++ digits)
        have hexponent := signedInt?_eq_some_iff.mpr ⟨_, _, _, hsign', hdigits, rfl, rfl⟩
        rw [read?_of_marked hbody hmark, mantissa?_eq_some_iff.mpr hmantissa, Option.bind_some,
          hexponent]
        rfl

end Numeral

/-! ## The characters of numerals -/

theorem SignMark.noBlank {sign : List Char} {negative : Bool} (h : SignMark sign negative) :
    ∀ c ∈ sign, isBlank c = false := by
  cases h with
  | absent => exact List.forall_mem_nil _
  | plus => exact List.forall_mem_singleton.mpr rfl
  | minus => exact List.forall_mem_singleton.mpr rfl

theorem Mantissa.noBlank {cs whole : List Char} {fraction : Option (List Char)}
    (h : Mantissa cs whole fraction) : ∀ c ∈ cs, isBlank c = false := by
  intro c hc
  rcases h.chars c hc with hdigit | rfl
  · exact not_isBlank_of_digit hdigit
  · decide

theorem Exponent.noBlank {cs : List Char} {k : Option Int} (h : Exponent cs k) :
    ∀ c ∈ cs, isBlank c = false := by
  cases h with
  | absent => exact List.forall_mem_nil _
  | marked hmark hsign hdigits =>
    refine List.forall_mem_cons.mpr ⟨?_, List.forall_mem_append.mpr ⟨hsign.noBlank, ?_⟩⟩
    · rcases hmark with rfl | rfl <;> decide
    · exact fun c hc => not_isBlank_of_digit (hdigits.digit c hc)

namespace IsNumeral

variable {cs : List Char} {n : Numeral} (h : IsNumeral cs n)

include h

theorem ne_nil : cs ≠ [] := by
  cases h with
  | intro hsign hmantissa htail => simp [hmantissa.ne_nil]

theorem noBlank : ∀ c ∈ cs, isBlank c = false := by
  cases h with
  | intro hsign hmantissa htail =>
    exact List.forall_mem_append.mpr ⟨hsign.noBlank,
      List.forall_mem_append.mpr ⟨hmantissa.noBlank, htail.noBlank⟩⟩

/-- Two numerals with one text are one. -/
theorem unique {m : Numeral} (h' : IsNumeral cs m) : n = m :=
  Option.some.inj ((Numeral.read?_eq_some_iff.mpr h).symm.trans (Numeral.read?_eq_some_iff.mpr h'))

end IsNumeral

/-- Blanks around a numeral are left out of account. -/
theorem Numeral.ofText?_eq_some_iff {cs : List Char} {n : Numeral} :
    Numeral.ofText? cs = some n ↔ ∃ t, Padded cs t ∧ IsNumeral t n := by
  rw [Numeral.ofText?, read?_eq_some_iff]
  constructor
  · intro h
    exact ⟨trim cs, padded_trim cs, h⟩
  · intro h
    obtain ⟨t, hpadded, hnumeral⟩ := h
    rwa [hpadded.trim_eq hnumeral.noBlank hnumeral.ne_nil]

/-! ## Floating numbers -/

theorem toLower_of_digit {c : Char} (h : isAsciiDigit c = true) : c.toLower = c := by
  obtain ⟨hlow, hhigh⟩ := toNat_of_digit h
  have hval : c.val.toNat = c.toNat := rfl
  have hA : 'A'.val.toNat = 65 := rfl
  refine dif_neg fun hupper => ?_
  have hfirst := UInt32.le_iff_toNat_le.mp hupper.1
  omega

/-- Texts that begin like a numeral are no words. -/
theorem Mantissa.not_word {cs whole tail : List Char} {fraction : Option (List Char)}
    (h : Mantissa cs whole fraction) {c : Char} {word : List Char} (hc : c = 'i' ∨ c = 'n') :
    toAsciiLower (String.ofList (cs ++ tail)) ≠ String.ofList (c :: word) := by
  obtain ⟨d, ds, rfl⟩ := List.exists_cons_of_ne_nil h.ne_nil
  intro heq
  have hlower : d.toLower = c := by
    have hlists := congrArg String.toList heq
    simp only [toAsciiLower, String.toList_ofList, List.cons_append, List.map_cons] at hlists
    exact (List.cons.inj hlists).1
  rcases h.chars d (List.mem_cons_self ..) with hd | rfl
  · rw [toLower_of_digit hd] at hlower
    subst hlower
    rcases hc with rfl | rfl <;> cases hd
  · subst hlower
    rcases hc with hc | hc <;> cases hc

/-- Every numeral is the text of a floating number. -/
theorem IsNumeral.ofText? {cs : List Char} {n : Numeral} (h : IsNumeral cs n) :
    Binary64.ofText? cs = some n.toBinary64 := by
  have hread := Numeral.read?_eq_some_iff.mpr h
  cases h with
  | @intro sign mantissa tail whole fraction exponent negative hsign hmantissa htail =>
    have hbody := Numeral.splitSign_append hsign (hmantissa.unsigned tail)
    rw [Binary64.ofText?, hbody]
    dsimp only
    split
    · next hword => exact absurd hword (hmantissa.not_word (.inl rfl))
    · next hword => exact absurd hword (hmantissa.not_word (.inl rfl))
    · next hword => exact absurd hword (hmantissa.not_word (.inr rfl))
    · rw [hread]
      rfl

end Criteria
