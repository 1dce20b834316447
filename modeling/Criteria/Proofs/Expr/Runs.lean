import Criteria.Proofs.Expr.Lexing

/-!
# The parts of a lexeme in front of a place

Runs of digits, numerals, string literals and signs that end in front of a place of a text, and
what stands there when the text behind the place is replaced by another one. Only what starts with a
blank, or is empty (`Apart`), is sure not to go on with a run or a sign; behind the closing quote of
a string anything may stand.
-/

namespace Criteria

open Text

/-! ## Blanks -/

/-- The text is empty or starts with a blank. -/
def Apart (s : List Char) : Prop := ∀ c ∈ s.head?, isBlank c = true

theorem apart_nil : Apart [] := nofun

theorem apart_of_all {r : List Char} (hr : ∀ c ∈ r, isBlank c = true) : Apart r := by
  intro c hc
  exact hr c (List.mem_of_mem_head? hc)

/-- A run of blanks. -/
structure BlankRun (r : List Char) : Prop where
  ne_nil : r ≠ []
  blank : ∀ c ∈ r, isBlank c = true

/-- All characters are plain blanks. -/
def Plain (r : List Char) : Prop := ∀ c ∈ r, isPlainBlank c = true

theorem BlankRun.apart {r : List Char} (hr : BlankRun r) (s : List Char) : Apart (r ++ s) := by
  intro c hc
  obtain ⟨d, r, rfl⟩ := List.exists_cons_of_ne_nil hr.ne_nil
  exact hr.blank c (List.mem_of_mem_head? hc)

theorem Plain.blankRun {r : List Char} (hr : Plain r) (hne : r ≠ []) : BlankRun r where
  ne_nil := hne
  blank c hc := isBlank_of_isPlainBlank (hr c hc)

theorem plain_append {r s : List Char} (hr : Plain r) (hs : Plain s) : Plain (r ++ s) := by
  intro c hc
  rcases List.mem_append.mp hc with hc | hc
  · exact hr c hc
  · exact hs c hc

theorem plain_space : Plain [' '] := List.forall_mem_singleton.mpr rfl

theorem blankRun_space : BlankRun [' '] := plain_space.blankRun (List.cons_ne_nil _ _)

theorem mem_of_within {ranges : List (Nat × Nat)} {c : Char} (h : within ranges c = true) :
    c.toNat ∈ ranges.flatMap fun r => List.range' r.1 (r.2 + 1 - r.1) := by
  obtain ⟨r, hr, hc⟩ := List.any_eq_true.mp h
  simp only [Bool.and_eq_true, decide_eq_true_eq] at hc
  rw [List.mem_flatMap]
  refine ⟨r, hr, ?_⟩
  rw [List.mem_range'_1]
  omega

theorem not_isNameChar_of_isBlank {c : Char} (h : isBlank c = true) : isNameChar c = false := by
  have hall : ∀ n ∈ blankRanges.flatMap (fun r => List.range' r.1 (r.2 + 1 - r.1)),
      isNameChar (Char.ofNat n) = false := by decide +kernel
  have hc := hall _ (mem_of_within h)
  rwa [Char.ofNat_toNat] at hc

theorem not_isBlank_of_isNameChar {c : Char} (h : isNameChar c = true) : ¬ isBlank c = true := by
  intro hblank
  rw [not_isNameChar_of_isBlank hblank] at h
  cases h

theorem not_isPlainBlank_of_isNameChar {c : Char} (h : isNameChar c = true) :
    ¬ isPlainBlank c = true :=
  fun hplain => not_isBlank_of_isNameChar h (isBlank_of_isPlainBlank hplain)

theorem not_isAsciiDigit_of_isBlank {c : Char} (h : isBlank c = true) :
    isAsciiDigit c = false := by
  rw [Bool.eq_false_iff]
  intro hdigit
  rw [not_isBlank_of_digit hdigit] at h
  cases h

theorem Apart.noNameChar {s : List Char} (hs : Apart s) : NoNameChar s := by
  intro c hc
  exact not_isNameChar_of_isBlank (hs c hc)

theorem Apart.noDigit {s : List Char} (hs : Apart s) : NoDigit s := by
  intro c hc
  constructor
  · exact not_isAsciiDigit_of_isBlank (hs c hc)
  · intro h
    subst h
    cases hs _ hc

/-! ## Runs and numerals -/

section Swap

variable {x s s' : List Char}

/-- A run that ends in front of a place is the same before everything that does not go on with it
there. -/
theorem takeWhile_swap {p : Char → Bool} (h : ((x ++ s).takeWhile p).length ≤ x.length)
    (hs' : ∀ c ∈ s'.head?, p c = false) : (x ++ s').takeWhile p = (x ++ s).takeWhile p := by
  induction x with
  | nil =>
    rw [List.eq_nil_of_length_eq_zero (Nat.le_zero.mp h)]
    cases s' with
    | nil => rfl
    | cons c s' => rw [List.nil_append, List.takeWhile_cons, hs' c rfl]; rfl
  | cons c x ih =>
    simp only [List.cons_append, List.takeWhile_cons] at h ⊢
    cases hc : p c
    · rfl
    · rw [hc] at h
      simp only [if_true, List.length_cons, Nat.add_le_add_iff_right] at h ⊢
      rw [ih h]

theorem digitRun_swap (h : (Lexeme.digitRun (x ++ s)).length ≤ x.length) (hs' : NoDigit s') :
    Lexeme.digitRun (x ++ s') = Lexeme.digitRun (x ++ s) := by
  cases x with
  | nil =>
    rw [List.eq_nil_of_length_eq_zero (Nat.le_zero.mp h)]
    cases s' with
    | nil => rfl
    | cons c s' => rw [List.nil_append, Lexeme.digitRun, (hs' c rfl).1]; rfl
  | cons c x =>
    simp only [List.cons_append, Lexeme.digitRun] at h ⊢
    cases hc : isAsciiDigit c
    · rfl
    · simp only [hc, if_true, List.length_cons, Nat.add_le_add_iff_right] at h ⊢
      rw [takeWhile_swap h]
      intro d hd
      obtain ⟨hdigit, hne⟩ := hs' d hd
      rw [hdigit, Bool.false_or]
      exact beq_false_of_ne hne

theorem digitRun_length_le (x : List Char) : (Lexeme.digitRun x).length ≤ x.length := by
  cases x with
  | nil => exact Nat.le_refl _
  | cons c x =>
    rw [Lexeme.digitRun]
    split
    · exact Nat.succ_le_succ (List.takeWhile_prefix _).length_le
    · exact Nat.zero_le _

theorem fractionRun?_nil (hs : Apart s) : Lexeme.fractionRun? s = none := by
  unfold Lexeme.fractionRun?
  split
  · cases hs '.' rfl
  · rfl

theorem fractionRun?_point (cs : List Char) : Lexeme.fractionRun? ('.' :: cs) =
    if (Lexeme.digitRun cs).isEmpty then none else some (Lexeme.digitRun cs) := rfl

theorem fractionRun?_of_ne {c : Char} (hc : c ≠ '.') (cs : List Char) :
    Lexeme.fractionRun? (c :: cs) = none := by
  unfold Lexeme.fractionRun?
  split
  · next h => exact absurd (List.cons.inj h).1 hc
  · rfl

theorem fractionRun?_swap (h : fractionExtent (Lexeme.fractionRun? (x ++ s)) ≤ x.length)
    (hs' : Apart s') : Lexeme.fractionRun? (x ++ s') = Lexeme.fractionRun? (x ++ s) := by
  cases x with
  | nil =>
    rw [List.nil_append, fractionRun?_nil hs']
    cases hf : Lexeme.fractionRun? s with
    | none => rw [List.nil_append, hf]
    | some run => rw [List.nil_append, hf] at h; cases h
  | cons c x =>
    simp only [List.cons_append] at h ⊢
    by_cases hc : c = '.'
    · subst hc
      rw [fractionRun?_point] at h ⊢
      rw [fractionRun?_point]
      have hrun : (Lexeme.digitRun (x ++ s)).length ≤ x.length := by
        cases hempty : (Lexeme.digitRun (x ++ s)).isEmpty with
        | true => rw [List.isEmpty_iff.mp hempty]; exact Nat.zero_le _
        | false =>
          rw [hempty] at h
          exact Nat.succ_le_succ_iff.mp h
      rw [digitRun_swap hrun hs'.noDigit]
    · rw [fractionRun?_of_ne hc, fractionRun?_of_ne hc]

/-- The sign of an exponent and its extent. -/
def exponentSign : List Char → Bool × Nat
  | '-' :: _ => (true, 1)
  | '+' :: _ => (false, 1)
  | _ => (false, 0)

theorem exponentRun?_cons (c : Char) (cs : List Char) : Lexeme.exponentRun? (c :: cs) =
    if c == 'e' || c == 'E' then
      if (Lexeme.digitRun (cs.drop (exponentSign cs).2)).isEmpty then none
      else some ((exponentSign cs).1, 1 + (exponentSign cs).2,
        Lexeme.digitRun (cs.drop (exponentSign cs).2))
    else none := rfl

theorem exponentSign_nil (hs : Apart s) : exponentSign s = (false, 0) := by
  unfold exponentSign
  split
  · cases hs '-' rfl
  · cases hs '+' rfl
  · rfl

theorem digitRun_nil (hs : NoDigit s) : Lexeme.digitRun s = [] := by
  cases s with
  | nil => rfl
  | cons c s => rw [Lexeme.digitRun, (hs c rfl).1]; rfl

theorem exponentRun?_nil (hs : Apart s) : Lexeme.exponentRun? s = none := by
  cases s with
  | nil => rfl
  | cons c s =>
    rw [exponentRun?_cons, if_neg]
    intro hc
    rcases Bool.or_eq_true_iff.mp hc with hc | hc <;> obtain rfl := eq_of_beq hc <;>
      cases hs _ rfl

theorem exponentSign_cons (d : Char) (cs : List Char) :
    exponentSign (d :: cs) = exponentSign [d] := by
  unfold exponentSign
  split <;> simp_all

theorem exponentSign_le (cs : List Char) : (exponentSign cs).2 ≤ 1 := by
  unfold exponentSign
  split <;> decide

/-- An exponent has a letter and digits. -/
theorem exists_of_exponentRun? {cs run : List Char} {negative : Bool} {marks : Nat}
    (h : Lexeme.exponentRun? cs = some (negative, marks, run)) :
    ∃ c cs', cs = c :: cs' ∧ marks = 1 + (exponentSign cs').2 ∧
      run = Lexeme.digitRun (cs'.drop (exponentSign cs').2) ∧ 0 < run.length := by
  cases cs with
  | nil => cases h
  | cons c cs =>
    rw [exponentRun?_cons] at h
    split at h
    · split at h
      · cases h
      · next hne =>
        cases h
        refine ⟨c, cs, rfl, rfl, rfl, ?_⟩
        rw [List.length_pos_iff]
        intro hnil
        exact hne (List.isEmpty_iff.mpr hnil)
    · cases h

theorem exponentRun?_eq_none {cs : List Char}
    (h : exponentExtent (Lexeme.exponentRun? cs) ≤ 1) : Lexeme.exponentRun? cs = none := by
  cases he : Lexeme.exponentRun? cs with
  | none => rfl
  | some e =>
    obtain ⟨negative, marks, run⟩ := e
    obtain ⟨c, cs', -, hmarks, -, hpos⟩ := exists_of_exponentRun? he
    rw [he] at h
    simp only [exponentExtent] at h
    omega

theorem exponentRun?_swap (h : exponentExtent (Lexeme.exponentRun? (x ++ s)) ≤ x.length)
    (hs' : Apart s') : Lexeme.exponentRun? (x ++ s') = Lexeme.exponentRun? (x ++ s) := by
  match x with
  | [] =>
    rw [exponentRun?_eq_none (Nat.le_succ_of_le h)]
    exact exponentRun?_nil hs'
  | [c] =>
    rw [exponentRun?_eq_none h, List.singleton_append, exponentRun?_cons, exponentSign_nil hs',
      List.drop_zero, digitRun_nil hs'.noDigit]
    exact ite_self none
  | c :: d :: x =>
    simp only [List.cons_append, exponentRun?_cons, exponentSign_cons d] at h ⊢
    have hdrop (r : List Char) : (d :: (x ++ r)).drop (exponentSign [d]).2 =
        (d :: x).drop (exponentSign [d]).2 ++ r := by
      rw [← List.cons_append, List.drop_append_of_le_length]
      exact Nat.le_trans (exponentSign_le _) (Nat.succ_le_succ (Nat.zero_le _))
    rw [hdrop] at h ⊢
    rw [hdrop]
    cases hc : (c == 'e' || c == 'E')
    · rfl
    · have hrun : (Lexeme.digitRun ((d :: x).drop (exponentSign [d]).2 ++ s)).length ≤
          ((d :: x).drop (exponentSign [d]).2).length := by
        rw [hc, if_pos rfl] at h
        split at h
        · next hempty => rw [List.isEmpty_iff.mp hempty]; exact Nat.zero_le _
        · simp only [exponentExtent, List.length_cons, List.length_drop] at h ⊢
          omega
      rw [digitRun_swap hrun hs'.noDigit]

/-- A numeral that ends in front of a place is the same before everything that starts with a blank
there. -/
theorem readNumeral_swap (h : (Lexeme.readNumeral (x ++ s)).2 ≤ x.length) (hs' : Apart s') :
    Lexeme.readNumeral (x ++ s') = Lexeme.readNumeral (x ++ s) := by
  generalize hw : Lexeme.digitRun (x ++ s) = whole
  generalize hf : Lexeme.fractionRun? ((x ++ s).drop whole.length) = fraction
  generalize he : Lexeme.exponentRun? (((x ++ s).drop whole.length).drop (fractionExtent fraction)) =
    exponent
  have hread := readNumeral_runs hw hf he
  rw [hread] at h ⊢
  have hwhole : whole.length ≤ x.length := by omega
  have hdrop (r : List Char) : (x ++ r).drop whole.length = x.drop whole.length ++ r :=
    List.drop_append_of_le_length hwhole
  have hlength : (x.drop whole.length).length = x.length - whole.length := List.length_drop
  rw [hdrop] at hf he
  have hfraction : fractionExtent fraction ≤ (x.drop whole.length).length := by omega
  have hdrop' (r : List Char) : (x.drop whole.length ++ r).drop (fractionExtent fraction) =
      (x.drop whole.length).drop (fractionExtent fraction) ++ r :=
    List.drop_append_of_le_length hfraction
  rw [hdrop'] at he
  have hexponent : exponentExtent exponent ≤
      ((x.drop whole.length).drop (fractionExtent fraction)).length := by
    rw [List.length_drop]
    omega
  apply readNumeral_runs
  · rw [digitRun_swap (by rw [hw]; exact hwhole) hs'.noDigit, hw]
  · rw [hdrop, fractionRun?_swap (by rw [hf]; exact hfraction) hs', hf]
  · rw [hdrop, hdrop', exponentRun?_swap (by rw [he]; exact hexponent) hs', he]

theorem fractionExtent_le (cs : List Char) :
    fractionExtent (Lexeme.fractionRun? cs) ≤ cs.length := by
  cases cs with
  | nil => exact Nat.le_refl _
  | cons c cs =>
    by_cases hc : c = '.'
    · subst hc
      rw [fractionRun?_point]
      split
      · exact Nat.zero_le _
      · exact Nat.succ_le_succ (digitRun_length_le cs)
    · rw [fractionRun?_of_ne hc]
      exact Nat.zero_le _

theorem exponentExtent_le (cs : List Char) :
    exponentExtent (Lexeme.exponentRun? cs) ≤ cs.length := by
  cases he : Lexeme.exponentRun? cs with
  | none => exact Nat.zero_le _
  | some e =>
    obtain ⟨negative, marks, run⟩ := e
    obtain ⟨c, cs', rfl, hmarks, hrun, hpos⟩ := exists_of_exponentRun? he
    have hle := digitRun_length_le (cs'.drop (exponentSign cs').2)
    rw [← hrun, List.length_drop] at hle
    simp only [exponentExtent, List.length_cons]
    omega

theorem readNumeral_le (cs : List Char) : (Lexeme.readNumeral cs).2 ≤ cs.length := by
  rw [readNumeral_runs rfl rfl rfl]
  have hwhole := digitRun_length_le cs
  have hfraction := fractionExtent_le (cs.drop (Lexeme.digitRun cs).length)
  have hexponent := exponentExtent_le ((cs.drop (Lexeme.digitRun cs).length).drop
    (fractionExtent (Lexeme.fractionRun? (cs.drop (Lexeme.digitRun cs).length))))
  rw [List.length_drop] at hfraction hexponent
  rw [List.length_drop] at hexponent
  simp only
  omega

/-! ## Strings and signs -/

theorem quoted_of_readString {q : Char} {cs v : List Char} {n : Nat}
    (h : Lexeme.readString q cs = some (v, n)) :
    ∃ u t, cs = u ++ t ∧ Quoted q u v ∧ n = u.length := by
  induction cs using Lexeme.readString.induct q generalizing v n with
  | case1 => cases h
  | case2 =>
    rw [Lexeme.readString, if_pos rfl] at h
    cases h
    exact ⟨[q], [], rfl, .close, rfl⟩
  | case3 c hc =>
    rw [Lexeme.readString, if_neg hc] at h
    cases h
  | case4 d cs =>
    rw [Lexeme.readString, if_pos rfl] at h
    cases h
    exact ⟨[q], d :: cs, rfl, .close, rfl⟩
  | case5 d cs hc ih =>
    rw [Lexeme.readString, if_neg hc, if_pos rfl, Option.map_eq_some_iff] at h
    obtain ⟨⟨v, n⟩, hread, heq⟩ := h
    cases heq
    obtain ⟨u, t, rfl, hu, rfl⟩ := ih hread
    exact ⟨'\\' :: d :: u, t, rfl, .escape hc hu, rfl⟩
  | case6 c d cs hc hslash ih =>
    rw [Lexeme.readString, if_neg hc, if_neg hslash, Option.map_eq_some_iff] at h
    obtain ⟨⟨v, n⟩, hread, heq⟩ := h
    cases heq
    obtain ⟨u, t, hcs, hu, rfl⟩ := ih hread
    exact ⟨c :: u, t, by rw [hcs, List.cons_append], .plain hc hslash hu, rfl⟩

/-- Of two parts at the start of a text the first ends in the second or goes on behind it. -/
theorem append_cases {u t : List Char} (h : u ++ t = x ++ s) :
    (∃ y, x = u ++ y ∧ t = y ++ s) ∨ ∃ c y, u = x ++ c :: y ∧ s = c :: (y ++ t) := by
  rcases List.append_eq_append_iff.mp h with ⟨y, hx, ht⟩ | ⟨y, hu, hs⟩
  · exact .inl ⟨y, hx, ht⟩
  · cases y with
    | nil =>
      rw [List.append_nil] at hu
      exact .inl ⟨[], by rw [hu, List.append_nil], hs.symm⟩
    | cons c y => exact .inr ⟨c, y, hu, hs⟩

theorem eq_append_of_le {u t : List Char} (h : u ++ t = x ++ s) (hle : u.length ≤ x.length) :
    ∃ y, x = u ++ y ∧ t = y ++ s := by
  rcases append_cases h with hx | ⟨c, y, hu, -⟩
  · exact hx
  · rw [hu, List.length_append, List.length_cons] at hle
    omega

theorem readString_swap {q : Char} {v : List Char} {n : Nat}
    (h : Lexeme.readString q (x ++ s) = some (v, n)) (hn : n ≤ x.length) :
    Lexeme.readString q (x ++ s') = some (v, n) := by
  obtain ⟨u, t, hcs, hu, rfl⟩ := quoted_of_readString h
  obtain ⟨y, rfl, -⟩ := eq_append_of_le hcs.symm hn
  rw [List.append_assoc]
  exact hu.readString _

theorem readString_le {q : Char} {cs v : List Char} {n : Nat}
    (h : Lexeme.readString q cs = some (v, n)) : n ≤ cs.length := by
  obtain ⟨u, t, rfl, -, rfl⟩ := quoted_of_readString h
  rw [List.length_append]
  exact Nat.le_add_right ..

/-- Two searches with one result each, which the other one finds as well. -/
theorem findSome?_eq_findSome? {α β : Type} {f g : α → Option β} {l : List α}
    (hfg : ∀ b, l.findSome? f = some b → ∀ a ∈ l, f a = some b → g a = some b)
    (hgf : ∀ b, l.findSome? g = some b → ∀ a ∈ l, g a = some b → f a = some b) :
    l.findSome? f = l.findSome? g := by
  induction l with
  | nil => rfl
  | cons a l ih =>
    simp only [List.findSome?_cons] at hfg hgf ⊢
    cases hf : f a with
    | some b =>
      simp only [hf] at hfg
      rw [hfg b rfl a (List.mem_cons_self ..) hf]
    | none =>
      cases hg : g a with
      | some b =>
        simp only [hg] at hgf
        rw [hgf b rfl a (List.mem_cons_self ..) hg] at hf
        cases hf
      | none =>
        simp only [hf, hg] at hfg hgf
        exact ih (fun b hb a' ha' => hfg b hb a' (List.mem_cons_of_mem _ ha'))
          (fun b hb a' ha' => hgf b hb a' (List.mem_cons_of_mem _ ha'))

theorem not_isBlank_sign {p : Spelling} (hp : p ∈ Spelling.inSigns) :
    ∀ c ∈ p.text.toList, isBlank c = false := by
  have hall : Spelling.inSigns.all (fun p => p.text.toList.all (!isBlank ·)) = true := by decide
  intro c hc
  have hnot := List.all_eq_true.mp (List.all_eq_true.mp hall p hp) c hc
  rwa [Bool.not_eq_true'] at hnot

/-- Text without blanks that starts in front of a blank ends there. -/
theorem prefix_of_apart {t : List Char} (ht : ∀ c ∈ t, isBlank c = false) (hs : Apart s)
    (h : t <+: x ++ s) : t <+: x := by
  obtain ⟨r, hr⟩ := h
  rcases append_cases hr with ⟨y, hx, -⟩ | ⟨c, y, htext, hy⟩
  · exact ⟨y, hx.symm⟩
  · have hblank : isBlank c = true := hs c (by rw [hy]; rfl)
    rw [ht c (by rw [htext]; simp)] at hblank
    cases hblank

theorem readSigns?_swap (h : ∀ b, Lexeme.readSigns? (x ++ s) = some b → b.2 ≤ x.length)
    (hs' : Apart s') : Lexeme.readSigns? (x ++ s') = Lexeme.readSigns? (x ++ s) := by
  apply findSome?_eq_findSome?
  · intro b _ p hp hb
    split at hb
    · next hstart =>
      have hx := prefix_of_apart (not_isBlank_sign hp) hs' (List.isPrefixOf_iff_prefix.mp hstart)
      rw [if_pos (List.isPrefixOf_iff_prefix.mpr (hx.trans (List.prefix_append x s)))]
      exact hb
    · cases hb
  · intro b hfirst p hp hb
    split at hb
    · next hstart =>
      have hle := h b hfirst
      cases hb
      have hx := List.prefix_of_prefix_length_le (List.isPrefixOf_iff_prefix.mp hstart)
        (List.prefix_append x s) (by rwa [String.length_toList])
      rw [if_pos (List.isPrefixOf_iff_prefix.mpr (hx.trans (List.prefix_append x s')))]
    · cases hb

theorem readSigns?_le {cs : List Char} {b : Spelling × Nat} (h : Lexeme.readSigns? cs = some b) :
    b.2 ≤ cs.length := by
  obtain ⟨p, -, hp⟩ := List.exists_of_findSome?_eq_some h
  split at hp
  · next hstart =>
    cases hp
    rw [← String.length_toList]
    exact (List.isPrefixOf_iff_prefix.mp hstart).length_le
  · cases hp

end Swap

end Criteria
