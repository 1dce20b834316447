import Criteria.Proofs.Expr.Words

/-!
# Where a lexeme ends

A lexeme that is read at the start of a text depends on the text behind it only as far as that goes
on with it. In front of a blank nothing goes on but a string, up to its closing quote, and an
operator of several words, over a gap between two of them (`read_crosses`). A lexeme that ends
before a place is read as the same lexeme when the text behind the place is replaced by one that
starts with a blank, or by none (`read_swap`).
-/

namespace Criteria

open Text

section Swap

variable {c : Char} {x s s' : List Char}

theorem readWords?_swap (hs : NoNameChar s) (hs' : NoNameChar s')
    (h : ∀ b, Lexeme.readWords? (x ++ s) = some b → b.2 ≤ x.length)
    (h' : ∀ b, Lexeme.readWords? (x ++ s') = some b → b.2 ≤ x.length) :
    Lexeme.readWords? (x ++ s') = Lexeme.readWords? (x ++ s) := by
  apply findSome?_eq_findSome?
  · intro b hfirst ⟨p, ws⟩ hp hb
    obtain ⟨n, hn, rfl⟩ := Option.map_eq_some_iff.mp hb
    simp only
    rw [wordsExtent?_swap (fun w hw => isWord_of_mem hp hw) hs hn (h' _ hfirst)]
    rfl
  · intro b hfirst ⟨p, ws⟩ hp hb
    obtain ⟨n, hn, rfl⟩ := Option.map_eq_some_iff.mp hb
    simp only
    rw [wordsExtent?_swap (fun w hw => isWord_of_mem hp hw) hs' hn (h _ hfirst)]
    rfl

/-- The ways to read the lexeme `l` at the start of `c :: cs`, with its extent in `cs`. -/
inductive Reads (c : Char) (cs : List Char) : Lexeme → Nat → Prop
  | words {p : Spelling} {n : Nat} : isNameStart c = true →
      Lexeme.readWords? (c :: cs) = some (p, n) → Reads c cs (.operator p) (n - 1)
  | name : isNameStart c = true → Lexeme.readWords? (c :: cs) = none →
      Reads c cs (.name (String.ofList (c :: cs.takeWhile isNameChar)))
        (cs.takeWhile isNameChar).length
  | string {v : List Char} {n : Nat} : isNameStart c = false → (c = '"' || c = '\'') = true →
      Lexeme.readString c cs = some (v, n) → Reads c cs (.string (String.ofList v)) n
  | number : isNameStart c = false → (c = '"' || c = '\'') = false → isAsciiDigit c = true →
      Reads c cs (.number (Lexeme.readNumeral (c :: cs)).1.toNumeric)
        ((Lexeme.readNumeral (c :: cs)).2 - 1)
  | sign {p : Spelling} {n : Nat} : isNameStart c = false → (c = '"' || c = '\'') = false →
      isAsciiDigit c = false → Lexeme.readSigns? (c :: cs) = some (p, n) →
      Reads c cs (.operator p) (n - 1)
  | punctuation {p : Punctuation} : isNameStart c = false → (c = '"' || c = '\'') = false →
      isAsciiDigit c = false → Lexeme.readSigns? (c :: cs) = none →
      Punctuation.ofChar? c = some p → Reads c cs (.punctuation p) 0

theorem Reads.read {cs : List Char} {l : Lexeme} {n : Nat} (h : Reads c cs l n) :
    Lexeme.read c cs = .ok (l, n) := by
  cases h with
  | words hc hb => rw [read_of_isNameStart hc, hb]
  | name hc hb => rw [read_of_isNameStart hc, hb]
  | string hc hquote hv => simp only [Lexeme.read, hquote, if_true, hv]
  | number hc hquote hdigit =>
    simp only [Lexeme.read, hquote, hdigit, if_true, Bool.false_eq_true, if_false]
  | sign hc hquote hdigit hb =>
    simp only [Lexeme.read, hquote, hdigit, Bool.false_eq_true, if_false,
      readWords?_of_not_isNameStart hc, hb]
  | punctuation hc hquote hdigit hb hp =>
    simp only [Lexeme.read, hquote, hdigit, Bool.false_eq_true, if_false,
      readWords?_of_not_isNameStart hc, hb, hp]

theorem reads_of_read {cs : List Char} {l : Lexeme} {n : Nat}
    (h : Lexeme.read c cs = .ok (l, n)) : Reads c cs l n := by
  cases hc : isNameStart c with
  | true =>
    rw [read_of_isNameStart hc] at h
    split at h
    · next hb =>
      cases h
      exact .words hc hb
    · next hb =>
      cases h
      exact .name hc hb
  | false =>
    unfold Lexeme.read at h
    rw [readWords?_of_not_isNameStart hc] at h
    cases hquote : (c = '"' || c = '\'' : Bool) with
    | true =>
      rw [if_pos hquote] at h
      split at h
      · next hv =>
        cases h
        exact .string hc hquote hv
      · cases h
    | false =>
      rw [hquote, if_neg (by decide)] at h
      cases hdigit : isAsciiDigit c with
      | true =>
        rw [if_pos hdigit] at h
        cases h
        exact .number hc hquote hdigit
      | false =>
        rw [hdigit, if_neg (by decide)] at h
        cases hb : Lexeme.readSigns? (c :: cs) with
        | some b =>
          rw [hb] at h
          cases h
          exact .sign hc hquote hdigit hb
        | none =>
          rw [hb] at h
          cases hp : Punctuation.ofChar? c with
          | some p =>
            rw [hp] at h
            cases h
            exact .punctuation hc hquote hdigit hb hp
          | none =>
            rw [hp, hc] at h
            cases h

theorem read_le {cs : List Char} {l : Lexeme} {n : Nat} (h : Lexeme.read c cs = .ok (l, n)) :
    n ≤ cs.length := by
  cases reads_of_read h with
  | words _ hb =>
    have hle := readWords?_le hb
    simp only [List.length_cons] at hle
    omega
  | name => exact (List.takeWhile_prefix _).length_le
  | string _ _ hv => exact readString_le hv
  | number =>
    have hle := readNumeral_le (c :: cs)
    rw [List.length_cons] at hle
    omega
  | sign _ _ _ hb =>
    have hle := readSigns?_le hb
    simp only [List.length_cons] at hle
    omega
  | punctuation => exact Nat.zero_le _

/-- No name goes on behind a lexeme that starts like one. -/
theorem noNameChar_of_read {l : Lexeme} (hc : isNameStart c = true)
    (h : Lexeme.read c (x ++ s) = .ok (l, x.length)) : NoNameChar s := by
  rw [read_of_isNameStart hc] at h
  split at h
  · next p m hb =>
    obtain ⟨ws, u, t, -, hws, hcs, hu, ht, hm⟩ := words_of_readWords? hb
    obtain ⟨d, u', rfl, -⟩ := hu.head hws
    obtain ⟨-, hsplit⟩ := List.cons.inj hcs
    simp only [Except.ok.injEq, Prod.mk.injEq] at h
    simp only [List.length_cons] at hm
    obtain ⟨-, rfl⟩ := List.append_inj hsplit (by omega)
    exact ht
  · simp only [Except.ok.injEq, Prod.mk.injEq] at h
    have hsplit : (x ++ s).takeWhile isNameChar ++ (x ++ s).dropWhile isNameChar = x ++ s :=
      List.takeWhile_append_dropWhile
    obtain ⟨-, hs⟩ := List.append_inj hsplit h.2
    rw [← hs]
    exact noNameChar_dropWhile _

/-- A lexeme that ends in front of a place is read before everything that starts with a blank
there, unless words go on behind the place. -/
theorem read_swap {l : Lexeme} {n : Nat} (h : Lexeme.read c (x ++ s) = .ok (l, n))
    (hn : n ≤ x.length) (hs : isNameStart c = true → NoNameChar s) (hs' : Apart s')
    (hwords : ∀ b, Lexeme.readWords? (c :: x ++ s') = some b → b.2 ≤ (c :: x).length) :
    Lexeme.read c (x ++ s') = .ok (l, n) := by
  have hlength : (c :: x).length = x.length + 1 := List.length_cons
  apply Reads.read
  cases reads_of_read h with
  | @words p m hc hb =>
    refine .words hc ?_
    have hle : ∀ b, Lexeme.readWords? (c :: x ++ s) = some b → b.2 ≤ (c :: x).length := by
      intro b hb'
      cases hb.symm.trans hb'
      simp only
      omega
    exact (readWords?_swap (hs hc) hs'.noNameChar hle hwords).trans hb
  | name hc hb =>
    rw [← takeWhile_swap hn hs'.noNameChar]
    refine .name hc ?_
    have hle : ∀ b, Lexeme.readWords? (c :: x ++ s) = some b → b.2 ≤ (c :: x).length := by
      intro b hb'
      cases hb.symm.trans hb'
    exact (readWords?_swap (hs hc) hs'.noNameChar hle hwords).trans hb
  | string hc hquote hv => exact .string hc hquote (readString_swap hv hn)
  | number hc hquote hdigit =>
    have hle : (Lexeme.readNumeral (c :: x ++ s)).2 ≤ (c :: x).length := by
      rw [List.cons_append]
      omega
    rw [← List.cons_append, ← readNumeral_swap hle hs']
    exact .number hc hquote hdigit
  | @sign p m hc hquote hdigit hb =>
    refine .sign hc hquote hdigit ?_
    have hle : ∀ b, Lexeme.readSigns? (c :: x ++ s) = some b → b.2 ≤ (c :: x).length := by
      intro b hb'
      cases hb.symm.trans hb'
      simp only
      omega
    exact (readSigns?_swap hle hs').trans hb
  | punctuation hc hquote hdigit hb hp =>
    refine .punctuation hc hquote hdigit ?_ hp
    have hle : ∀ b, Lexeme.readSigns? (c :: x ++ s) = some b → b.2 ≤ (c :: x).length := by
      intro b hb'
      cases hb.symm.trans hb'
    exact (readSigns?_swap hle hs').trans hb

/-- In front of a blank only a string and an operator in words go on. -/
theorem read_crosses {l : Lexeme} {n : Nat} (h : Lexeme.read c (x ++ s) = .ok (l, n))
    (hn : x.length < n) (hs : Apart s) :
    (∃ v, l = .string v) ∨
      ∃ p, l = .operator p ∧ Lexeme.readWords? (c :: (x ++ s)) = some (p, n + 1) := by
  -- a lexeme of another kind is read as it is where nothing stands behind `x`
  cases reads_of_read h with
  | @words p m hc hb =>
    refine .inr ⟨p, rfl, ?_⟩
    rw [Nat.sub_add_cancel (by omega)]
    exact hb
  | name =>
    have hle : ((x ++ []).takeWhile isNameChar).length ≤ x.length := by
      rw [List.append_nil]
      exact (List.takeWhile_prefix _).length_le
    rw [takeWhile_swap hle hs.noNameChar] at hn
    omega
  | string => exact .inl ⟨_, rfl⟩
  | number =>
    have hle : (Lexeme.readNumeral (c :: x ++ [])).2 ≤ (c :: x).length := by
      rw [List.append_nil]
      exact readNumeral_le _
    rw [← List.cons_append, readNumeral_swap hle hs] at hn
    rw [List.length_cons] at hle
    omega
  | @sign p m _ _ _ hb =>
    have hle : ∀ b, Lexeme.readSigns? (c :: x ++ []) = some b → b.2 ≤ (c :: x).length := by
      rw [List.append_nil]
      exact fun b => readSigns?_le
    rw [← List.cons_append, readSigns?_swap hle hs] at hb
    have hend := hle _ hb
    simp only [List.length_cons] at hend
    omega
  | punctuation => exact absurd hn (Nat.not_lt_zero _)

end Swap

end Criteria
