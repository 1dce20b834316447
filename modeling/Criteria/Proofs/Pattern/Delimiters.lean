import Criteria.Pattern.Delimiters

/-!
# Taking delimiters off a pattern

A pattern between delimiters is a delimiter, a body, the same delimiter and flags. The body may
have the delimiter in it. No flag is a delimiter, so that the last delimiter of a text is the only
one that can close it, and a text is a pattern between delimiters in one way at most.
-/

namespace Criteria.Pattern

/-! ## The last of some characters -/

section Last

variable {d : Char} {cs body flags : List Char}

theorem splitLast?_of_not_mem (h : d ∉ cs) : splitLast? d cs = none := by
  induction cs with
  | nil => rfl
  | cons c cs ih =>
    simp only [List.mem_cons, not_or] at h
    rw [splitLast?, ih h.2]
    exact if_neg (Ne.symm h.1)

theorem splitLast?_append (h : d ∉ flags) :
    splitLast? d (body ++ d :: flags) = some (body, flags) := by
  induction body with
  | nil =>
    rw [List.nil_append, splitLast?, splitLast?_of_not_mem h]
    exact if_pos rfl
  | cons c body ih => rw [List.cons_append, splitLast?, ih]

theorem eq_append_of_splitLast? (h : splitLast? d cs = some (body, flags)) :
    cs = body ++ d :: flags := by
  induction cs generalizing body with
  | nil => cases h
  | cons c cs ih =>
    rw [splitLast?] at h
    rcases hs : splitLast? d cs with _ | ⟨body', flags'⟩ <;> simp only [hs] at h
    · split at h
      · next hc =>
        cases h
        rw [hc, List.nil_append]
      · cases h
    · cases h
      rw [ih hs, List.cons_append]

end Last

/-! ## Patterns between delimiters -/

/-- The pattern is `body` between two delimiters `d`, and `flags` behind them. -/
structure Delimited (pattern : List Char) (d : Char) (body flags : List Char) : Prop where
  mem_delimiters : d ∈ ['/', '#', '~']
  mem_flags : ∀ c ∈ flags, c ∈ ['i', 'm', 's', 'x', 'u', 'U']
  text : pattern = d :: (body ++ d :: flags)

/-- A body with the flags written in front of it, if there are any. -/
def withFlags (flags body : List Char) : List Char :=
  if flags = [] then body else ['(', '?'] ++ flags ++ [')'] ++ body

theorem isDelimiter_iff {d : Char} : isDelimiter d = true ↔ d ∈ ['/', '#', '~'] := by
  simp [isDelimiter, or_assoc]

theorem isDelimitedFlag_iff {c : Char} :
    isDelimitedFlag c = true ↔ c ∈ ['i', 'm', 's', 'x', 'u', 'U'] := by
  simp [isDelimitedFlag, or_assoc]

namespace Delimited

variable {pattern : List Char} {d : Char} {body flags : List Char}

/-- No delimiter is a flag. -/
theorem not_mem_flags (h : Delimited pattern d body flags) : d ∉ flags := by
  intro hd
  have hflag := h.mem_flags d hd
  have hdelimiter := h.mem_delimiters
  simp only [List.mem_cons, List.not_mem_nil, or_false] at hdelimiter
  rcases hdelimiter with rfl | rfl | rfl <;> exact absurd hflag (by decide)

theorem splitLast?_eq (h : Delimited pattern d body flags) :
    splitLast? d (body ++ d :: flags) = some (body, flags) :=
  splitLast?_append h.not_mem_flags

theorem unique {d' : Char} {body' flags' : List Char} (h : Delimited pattern d body flags)
    (h' : Delimited pattern d' body' flags') : d = d' ∧ body = body' ∧ flags = flags' := by
  obtain ⟨rfl, hrest⟩ := List.cons.inj (h.text.symm.trans h'.text)
  have hsplit := h.splitLast?_eq
  rw [hrest, h'.splitLast?_eq] at hsplit
  cases hsplit
  exact ⟨rfl, rfl, rfl⟩

theorem undelimited_eq (h : Delimited pattern d body flags) :
    undelimited pattern = withFlags (flags.filter (· != 'u')) body := by
  have hd : isDelimiter d = true := isDelimiter_iff.mpr h.mem_delimiters
  have hflags : flags.all isDelimitedFlag = true :=
    List.all_eq_true.mpr fun c hc => isDelimitedFlag_iff.mpr (h.mem_flags c hc)
  rw [h.text, undelimited]
  simp only [hd, h.splitLast?_eq, hflags, Bool.not_true, Bool.false_eq_true, if_false,
    List.isEmpty_iff, withFlags, List.cons_append, List.nil_append, List.append_assoc]

end Delimited

/-- A pattern that is not between delimiters stays as it is. -/
theorem undelimited_of_not_delimited {pattern : List Char}
    (h : ∀ d body flags, ¬ Delimited pattern d body flags) : undelimited pattern = pattern := by
  cases pattern with
  | nil => rfl
  | cons d rest =>
    rw [undelimited]
    split
    · rfl
    next hd =>
    split
    · rfl
    next body flags hsplit =>
    split
    · rfl
    next hflags =>
    refine absurd ?_ (h d body flags)
    simp only [Bool.not_eq_true', Bool.not_eq_false, List.all_eq_true] at hd hflags
    exact {
      mem_delimiters := isDelimiter_iff.mp hd
      mem_flags := fun c hc => isDelimitedFlag_iff.mp (hflags c hc)
      text := congrArg (d :: ·) (eq_append_of_splitLast? hsplit) }

/-- A pattern between delimiters is so in one way and gives its body, behind its flags other than
`u`. Every other pattern is left as it is. -/
theorem undelimited_cases (pattern : List Char) :
    (∀ d body flags, Delimited pattern d body flags →
      undelimited pattern = withFlags (flags.filter (· != 'u')) body ∧
        ∀ d' body' flags', Delimited pattern d' body' flags' →
          d' = d ∧ body' = body ∧ flags' = flags) ∧
      ((∀ d body flags, ¬ Delimited pattern d body flags) → undelimited pattern = pattern) := by
  refine ⟨fun d body flags h => ⟨h.undelimited_eq, ?_⟩, undelimited_of_not_delimited⟩
  intro d' body' flags' h'
  exact h'.unique h

/-- The delimiter stands in the body too, and of the flags one is written. -/
theorem undelimited_cases_recurring :
    Delimited "#a#é#ui".toList '#' "a#é".toList "ui".toList ∧
      undelimited "#a#é#ui".toList = "(?i)a#é".toList := by
  have h : Delimited "#a#é#ui".toList '#' "a#é".toList "ui".toList :=
    ⟨by decide, by simp, rfl⟩
  exact ⟨h, ((undelimited_cases _).1 _ _ _ h).1.trans (by decide)⟩

end Criteria.Pattern
