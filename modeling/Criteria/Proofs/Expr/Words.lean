import Criteria.Proofs.Expr.Runs

/-!
# Operators in words

An operator of several words stands in a text with a gap of plain blanks between any two of them.
The gaps may be replaced by other ones, and over a place with blanks the words go on only if all of
these are plain.
-/

namespace Criteria

open Text

/-- A word starts like a name and has name characters only. -/
def IsWord (w : String) : Prop :=
  ∃ c cs, w.toList = c :: cs ∧ isNameStart c = true ∧ ∀ d ∈ cs, isNameChar d = true

theorem IsWord.chars {w : String} (hw : IsWord w) : ∀ d ∈ w.toList, isNameChar d = true := by
  obtain ⟨c, cs, htext, hc, hcs⟩ := hw
  rw [htext]
  intro d hd
  rcases List.mem_cons.mp hd with rfl | hd
  · exact isNameChar_of_isNameStart hc
  · exact hcs d hd

theorem isWord_of_mem {p : Spelling × List String} (hp : p ∈ Spelling.inWords) {w : String}
    (hw : w ∈ p.2) : IsWord w := by
  have hall : ∀ p ∈ Spelling.inWords, ∀ w ∈ p.2, w.toList.head?.any isNameStart = true := by decide
  have hchars := isNameChar_word hp hw
  have hstart := hall p hp w hw
  unfold IsWord
  cases htext : w.toList with
  | nil =>
    rw [htext] at hstart
    cases hstart
  | cons c cs =>
    rw [htext] at hstart hchars
    exact ⟨c, cs, rfl, hstart, fun d hd => hchars d (List.mem_cons_of_mem c hd)⟩

/-- The text `u` is the words `ws` with gaps between them. -/
inductive Words : List String → List Char → Prop
  | last (w : String) : Words [w] w.toList
  | gap {w : String} {ws : List String} {g u : List Char} : g ≠ [] → Plain g → Words ws u →
      Words (w :: ws) (w.toList ++ (g ++ u))

namespace Words

variable {ws : List String} {u : List Char} (h : Words ws u) (hws : ∀ w ∈ ws, IsWord w)

include h hws

theorem head : ∃ c u', u = c :: u' ∧ isNameStart c = true := by
  cases h with
  | last w =>
    obtain ⟨c, cs, htext, hc, -⟩ := hws w (List.mem_singleton_self w)
    exact ⟨c, cs, htext, hc⟩
  | @gap w ws g u _ _ _ =>
    obtain ⟨c, cs, htext, hc, -⟩ := hws w (List.mem_cons_self ..)
    exact ⟨c, cs ++ (g ++ u), by rw [htext, List.cons_append], hc⟩

theorem chars : ∀ c ∈ u, isNameChar c = true ∨ isPlainBlank c = true := by
  induction h with
  | last w =>
    intro c hc
    exact .inl ((hws w (List.mem_singleton_self w)).chars c hc)
  | @gap w ws g u _ hg _ ih =>
    intro c hc
    rcases List.mem_append.mp hc with hc | hc
    · exact .inl ((hws w (List.mem_cons_self ..)).chars c hc)
    · rcases List.mem_append.mp hc with hc | hc
      · exact .inr (hg c hc)
      · exact ih (fun v hv => hws v (List.mem_cons_of_mem w hv)) c hc

theorem ends_nameChar : ∃ v d, u = v ++ [d] ∧ isNameChar d = true := by
  induction h with
  | last w =>
    have hw := hws w (List.mem_singleton_self w)
    rcases List.eq_nil_or_concat w.toList with hnil | ⟨v, d, hv⟩
    · obtain ⟨c, cs, htext, -⟩ := hw
      rw [hnil] at htext
      cases htext
    · rw [List.concat_eq_append] at hv
      exact ⟨v, d, hv, hw.chars d (by rw [hv]; simp)⟩
  | @gap w ws g u _ _ _ ih =>
    obtain ⟨v, d, rfl, hd⟩ := ih (fun v hv => hws v (List.mem_cons_of_mem w hv))
    exact ⟨w.toList ++ (g ++ v), d, by simp only [List.append_assoc], hd⟩

/-- The words end with a word. -/
theorem exists_nameChar {x y : List Char} (hu : u = x ++ y) (hy : y ≠ []) :
    ∃ d ∈ y, isNameChar d = true := by
  obtain ⟨v, d, hv, hd⟩ := h.ends_nameChar hws
  rcases List.eq_nil_or_concat y with hnil | ⟨y', e, hy'⟩
  · exact absurd hnil hy
  · rw [List.concat_eq_append] at hy'
    rw [hu, hy', ← List.append_assoc] at hv
    obtain ⟨-, he⟩ := List.append_inj' hv rfl
    cases he
    exact ⟨d, by rw [hy']; simp, hd⟩

/-- No blanks stand at the end of words. -/
theorem not_all_isBlank {x y : List Char} (hu : u = x ++ y) (hy : y ≠ []) :
    ¬ ∀ c ∈ y, isBlank c = true := by
  intro hblank
  obtain ⟨d, hd, hname⟩ := h.exists_nameChar hws hu hy
  exact not_isBlank_of_isNameChar hname (hblank d hd)

/-- Words over blanks have only plain ones there, and go on behind them. -/
theorem cross {t x r b : List Char} (hr : ∀ c ∈ r, isBlank c = true)
    (hu : u ++ t = x ++ (r ++ b)) (hlt : x.length < u.length) :
    ∃ z, u = x ++ (r ++ z) ∧ b = z ++ t ∧ Plain r := by
  rcases append_cases hu with ⟨y, hx, -⟩ | ⟨c, y, hx, hy⟩
  · rw [hx, List.length_append] at hlt
    omega
  · rcases append_cases (show r ++ b = (c :: y) ++ t from hy) with ⟨z, hz, hb⟩ | ⟨d, z, hz, -⟩
    · rw [hz] at hx
      refine ⟨z, hx, hb, fun e he => ?_⟩
      rcases h.chars hws e (by rw [hx]; simp [he]) with hname | hplain
      · exact absurd (hr e he) (not_isBlank_of_isNameChar hname)
      · exact hplain
    · refine absurd (fun e he => hr e ?_) (h.not_all_isBlank hws hx (List.cons_ne_nil c y))
      rw [hz]
      exact List.mem_append_left _ he

/-- Plain blanks among words stand in a gap between two of them. -/
theorem split {x r z : List Char} (hu : u = x ++ (r ++ z)) (hne : r ≠ []) (hr : Plain r) :
    ∃ ws₁ ws₂ u₁ u₂ g₁ g₂, ws = ws₁ ++ ws₂ ∧ x = u₁ ++ g₁ ∧ z = g₂ ++ u₂ ∧ Words ws₁ u₁ ∧
      Words ws₂ u₂ ∧ Plain g₁ ∧ Plain g₂ := by
  obtain ⟨e, r, rfl⟩ := List.exists_cons_of_ne_nil hne
  have he : isPlainBlank e = true := hr e (List.mem_cons_self ..)
  induction h generalizing x with
  | last w =>
    have hname := (hws w (List.mem_singleton_self w)).chars e (by rw [hu]; simp)
    exact absurd he (not_isPlainBlank_of_isNameChar hname)
  | @gap w ws g u _ hplain hu' ih =>
    have hws' : ∀ v ∈ ws, IsWord v := fun v hv => hws v (List.mem_cons_of_mem w hv)
    rcases append_cases hu with ⟨y, rfl, hy⟩ | ⟨c, y, hw, hy⟩
    · rcases append_cases hy with ⟨x, rfl, hx⟩ | ⟨c, g', hg, hz⟩
      · -- behind the first gap
        obtain ⟨ws₁, ws₂, u₁, u₂, g₁, g₂, rfl, rfl, rfl, h₁, h₂, hg₁, hg₂⟩ := ih hws' hx
        refine ⟨w :: ws₁, ws₂, w.toList ++ (g ++ u₁), u₂, g₁, g₂, rfl, ?_, rfl, ?_, h₂, hg₁, hg₂⟩
        · simp only [List.append_assoc]
        · exact .gap (by assumption) hplain h₁
      · -- in the first gap
        rcases append_cases (show (e :: r) ++ z = (c :: g') ++ u from hz) with
          ⟨g₂, hsplit, rfl⟩ | ⟨d, r', hsplit, hhead⟩
        · rw [hg, hsplit] at hplain
          refine ⟨[w], ws, w.toList, u, y, g₂, rfl, rfl, rfl, .last w, hu', ?_, ?_⟩
          · exact fun d hd => hplain d (by simp [hd])
          · exact fun d hd => hplain d (by simp [hd])
        · obtain ⟨d', u', rfl, hd'⟩ := hu'.head hws'
          obtain ⟨rfl, -⟩ := List.cons.inj hhead
          exact absurd (hr d' (by rw [hsplit]; simp))
            (not_isPlainBlank_of_isNameChar (isNameChar_of_isNameStart hd'))
    · obtain ⟨rfl, -⟩ := List.cons.inj hy
      have hname := (hws w (List.mem_cons_self ..)).chars e (by rw [hw]; simp)
      exact absurd he (not_isPlainBlank_of_isNameChar hname)

omit hws in
theorem join {ws' : List String} {g u' : List Char} (hne : g ≠ []) (hg : Plain g)
    (h' : Words ws' u') : Words (ws ++ ws') (u ++ (g ++ u')) := by
  induction h with
  | last w => exact .gap hne hg h'
  | @gap w ws g' u hne' hg' _ ih =>
    have hwords := Words.gap (w := w) hne' hg' ih
    simpa only [List.append_assoc, List.cons_append] using hwords

/-- A part of a gap may be replaced by other plain blanks. -/
theorem respace {x r r' z : List Char} (hu : u = x ++ (r ++ z)) (hne : r ≠ []) (hr : Plain r)
    (hne' : r' ≠ []) (hr' : Plain r') : Words ws (x ++ (r' ++ z)) := by
  obtain ⟨ws₁, ws₂, u₁, u₂, g₁, g₂, rfl, rfl, rfl, h₁, h₂, hg₁, hg₂⟩ := h.split hws hu hne hr
  have hwords := h₁.join (by simp [hne']) (plain_append hg₁ (plain_append hr' hg₂)) h₂
  simpa only [List.append_assoc] using hwords

end Words

theorem isPrefixOf_append (w t : List Char) : w.isPrefixOf (w ++ t) = true :=
  List.isPrefixOf_iff_prefix.mpr (List.prefix_append w t)

theorem words_of_wordsExtent? {ws : List String} {cs : List Char} {n : Nat}
    (h : Lexeme.wordsExtent? ws cs = some n) :
    ∃ u t, cs = u ++ t ∧ Words ws u ∧ NoNameChar t ∧ n = u.length := by
  induction ws generalizing cs n with
  | nil => cases h
  | cons w ws ih =>
    cases ws with
    | nil =>
      rw [Lexeme.wordsExtent?] at h
      split at h
      · next hc =>
        cases h
        obtain ⟨hstart, hnext⟩ := Bool.and_eq_true_iff.mp hc
        obtain ⟨t, rfl⟩ := List.isPrefixOf_iff_prefix.mp hstart
        rw [← String.length_toList, List.drop_left, Bool.not_eq_true'] at hnext
        exact ⟨w.toList, t, rfl, .last w, noNameChar_of_any hnext, String.length_toList.symm⟩
      · cases h
    | cons w' ws =>
      simp only [Lexeme.wordsExtent?] at h
      split at h
      · next hc =>
        obtain ⟨hstart, hgap⟩ := Bool.and_eq_true_iff.mp hc
        obtain ⟨t, rfl⟩ := List.isPrefixOf_iff_prefix.mp hstart
        rw [← String.length_toList] at h hgap
        obtain ⟨m, hm, rfl⟩ := Option.map_eq_some_iff.mp h
        rw [← List.drop_drop] at hm
        rw [List.drop_left] at hm hgap
        obtain ⟨g, r, rfl, hg⟩ : ∃ g r, t = g ++ r ∧ t.takeWhile isPlainBlank = g :=
          ⟨_, _, List.takeWhile_append_dropWhile.symm, rfl⟩
        rw [hg] at hm hgap
        rw [List.drop_left] at hm
        obtain ⟨u, t, rfl, hu, ht, rfl⟩ := ih hm
        refine ⟨w.toList ++ (g ++ u), t, ?_, ?_, ht, ?_⟩
        · simp only [List.append_assoc]
        · refine .gap ?_ ?_ hu
          · simpa using hgap
          · rw [← hg]
            exact List.all_eq_true.mp List.all_takeWhile
        · rw [List.drop_left, hg]
          simp only [List.length_append, Nat.add_assoc]
      · cases h

theorem Words.wordsExtent?_append {ws : List String} {u t : List Char} (hu : Words ws u)
    (hws : ∀ w ∈ ws, IsWord w) (ht : NoNameChar t) :
    Lexeme.wordsExtent? ws (u ++ t) = some u.length := by
  induction hu with
  | last w => rw [wordsExtent?_self ht, String.length_toList]
  | @gap w ws g u hg hplain hu ih =>
    have hws' : ∀ v ∈ ws, IsWord v := fun v hv => hws v (List.mem_cons_of_mem w hv)
    have htake : (g ++ (u ++ t)).takeWhile isPlainBlank = g := by
      obtain ⟨c, u', rfl, hc⟩ := hu.head hws'
      have hnot := not_isPlainBlank_of_isNameChar (isNameChar_of_isNameStart hc)
      rw [List.takeWhile_append_of_pos hplain, List.cons_append, List.takeWhile_cons_of_neg hnot,
        List.append_nil]
    obtain ⟨w', ws, rfl⟩ : ∃ w' ws', ws = w' :: ws' := by cases hu <;> exact ⟨_, _, rfl⟩
    simp only [List.append_assoc, Lexeme.wordsExtent?, isPrefixOf_append, ← String.length_toList]
    rw [← List.drop_drop, List.drop_left, htake, List.drop_left, ih hws']
    simp [hg, Nat.add_assoc]

/-- Words are found at the start of a text where they stand there, and no name goes on behind
them. -/
theorem wordsExtent?_eq_some_iff {ws : List String} (hws : ∀ w ∈ ws, IsWord w) {cs : List Char}
    {n : Nat} : Lexeme.wordsExtent? ws cs = some n ↔
      ∃ u t, cs = u ++ t ∧ Words ws u ∧ NoNameChar t ∧ n = u.length := by
  refine ⟨words_of_wordsExtent?, ?_⟩
  rintro ⟨u, t, rfl, hu, ht, rfl⟩
  exact hu.wordsExtent?_append hws ht

theorem wordsExtent?_swap {ws : List String} (hws : ∀ w ∈ ws, IsWord w) {x s s' : List Char}
    (hs' : NoNameChar s') {n : Nat} (h : Lexeme.wordsExtent? ws (x ++ s) = some n) (hn : n ≤ x.length) :
    Lexeme.wordsExtent? ws (x ++ s') = some n := by
  obtain ⟨u, t, hcs, hu, ht, rfl⟩ := (wordsExtent?_eq_some_iff hws).mp h
  obtain ⟨y, rfl, rfl⟩ := eq_append_of_le hcs.symm hn
  refine (wordsExtent?_eq_some_iff hws).mpr ⟨u, y ++ s', List.append_assoc .., hu, ?_, rfl⟩
  cases y with
  | nil => exact hs'
  | cons d y => exact ht

theorem words_of_readWords? {cs : List Char} {b : Spelling × Nat}
    (h : Lexeme.readWords? cs = some b) :
    ∃ ws u t, (b.1, ws) ∈ Spelling.inWords ∧ (∀ w ∈ ws, IsWord w) ∧ cs = u ++ t ∧ Words ws u ∧
      NoNameChar t ∧ b.2 = u.length := by
  obtain ⟨⟨p, ws⟩, hp, hb⟩ := List.exists_of_findSome?_eq_some h
  obtain ⟨n, hn, rfl⟩ := Option.map_eq_some_iff.mp hb
  have hws : ∀ w ∈ ws, IsWord w := fun w hw => isWord_of_mem hp hw
  obtain ⟨u, t, hcs, hu, ht, hlength⟩ := (wordsExtent?_eq_some_iff hws).mp hn
  exact ⟨ws, u, t, hp, hws, hcs, hu, ht, hlength⟩

theorem readWords?_le {cs : List Char} {b : Spelling × Nat} (h : Lexeme.readWords? cs = some b) :
    b.2 ≤ cs.length := by
  obtain ⟨ws, u, t, -, -, rfl, -, -, hb⟩ := words_of_readWords? h
  rw [hb, List.length_append]
  exact Nat.le_add_right ..

/-- Words do not go on over blanks behind which nothing stands. -/
theorem readWords?_blanks {x r : List Char} (hr : ∀ c ∈ r, isBlank c = true) {b : Spelling × Nat}
    (h : Lexeme.readWords? (x ++ r) = some b) : b.2 ≤ x.length := by
  obtain ⟨ws, u, t, -, hws, hcs, hu, -, hb⟩ := words_of_readWords? h
  rw [hb]
  rcases append_cases hcs.symm with ⟨y, rfl, -⟩ | ⟨c, y, hx, hy⟩
  · rw [List.length_append]
    exact Nat.le_add_right ..
  · refine absurd (fun d hd => hr d ?_) (hu.not_all_isBlank hws hx (List.cons_ne_nil c y))
    rw [hy, ← List.cons_append]
    exact List.mem_append_left _ hd

theorem readWords?_of_not_isNameStart {c : Char} (hc : isNameStart c = false) (cs : List Char) :
    Lexeme.readWords? (c :: cs) = none := by
  cases h : Lexeme.readWords? (c :: cs) with
  | none => rfl
  | some b =>
    obtain ⟨ws, u, t, -, hws, hcs, hu, -⟩ := words_of_readWords? h
    obtain ⟨d, u', rfl, hd⟩ := hu.head hws
    obtain ⟨rfl, -⟩ := List.cons.inj hcs
    rw [hc] at hd
    cases hd

section Respace

variable {x r b : List Char} (hr : BlankRun r)

include hr

/-- Words over blanks are also found there over other plain blanks. -/
theorem wordsExtent?_respace {ws : List String} (hws : ∀ w ∈ ws, IsWord w) {n : Nat}
    (h : Lexeme.wordsExtent? ws (x ++ (r ++ b)) = some n) (hlt : x.length < n) :
    ∃ z t, b = z ++ t ∧ NoNameChar t ∧ Words ws (x ++ (r ++ z)) ∧ Plain r ∧
      ∀ r', r' ≠ [] → Plain r' →
        Lexeme.wordsExtent? ws (x ++ (r' ++ b)) = some (x ++ (r' ++ z)).length := by
  obtain ⟨u, t, hcs, hu, ht, rfl⟩ := (wordsExtent?_eq_some_iff hws).mp h
  obtain ⟨z, rfl, rfl, hplain⟩ := hu.cross hws hr.blank hcs.symm hlt
  refine ⟨z, t, rfl, ht, hu, hplain, fun r' hne' hr' => ?_⟩
  rw [wordsExtent?_eq_some_iff hws]
  refine ⟨x ++ (r' ++ z), t, ?_, hu.respace hws rfl hr.ne_nil hplain hne' hr', ht, rfl⟩
  simp only [List.append_assoc]

/-- The first words that are found over blanks are the first over other plain blanks. -/
theorem readWords?_respace {p : Spelling} {n : Nat}
    (h : Lexeme.readWords? (x ++ (r ++ b)) = some (p, n)) (hlt : x.length < n) :
    ∃ ws z t, (p, ws) ∈ Spelling.inWords ∧ b = z ++ t ∧ NoNameChar t ∧ Words ws (x ++ (r ++ z)) ∧
      Plain r ∧ ∀ r', r' ≠ [] → Plain r' →
        Lexeme.readWords? (x ++ (r' ++ b)) = some (p, (x ++ (r' ++ z)).length) := by
  obtain ⟨l₁, ⟨p', ws⟩, l₂, hl, hp, hnone⟩ := List.findSome?_eq_some_iff.mp h
  obtain ⟨n, hn, hpair⟩ := Option.map_eq_some_iff.mp hp
  cases hpair
  have hmem : (p, ws) ∈ Spelling.inWords := by rw [hl]; simp
  obtain ⟨z, t, hb, ht, hwords, hplain, hfound⟩ :=
    wordsExtent?_respace hr (fun w hw => isWord_of_mem hmem hw) hn hlt
  refine ⟨ws, z, t, hmem, hb, ht, hwords, hplain, fun r' hne' hr' => ?_⟩
  refine List.findSome?_eq_some_iff.mpr ⟨l₁, (p, ws), l₂, hl, ?_, ?_⟩
  · simp only
    rw [hfound r' hne' hr']
    rfl
  · -- what comes earlier in the table and is found here is found over the blanks `r` as well
    intro ⟨q, ws'⟩ hq
    have hws' : ∀ w ∈ ws', IsWord w := by
      have hmem' : (q, ws') ∈ Spelling.inWords := by rw [hl]; simp [hq]
      exact fun w hw => isWord_of_mem hmem' hw
    have hnone' : Lexeme.wordsExtent? ws' (x ++ (r ++ b)) = none :=
      Option.map_eq_none_iff.mp (hnone _ hq)
    rw [Option.map_eq_none_iff]
    cases hm : Lexeme.wordsExtent? ws' (x ++ (r' ++ b)) with
    | none => rfl
    | some m =>
      by_cases hle : m ≤ x.length
      · rw [wordsExtent?_swap hws' (hr.apart b).noNameChar hm hle] at hnone'
        cases hnone'
      · obtain ⟨z', t', -, -, -, -, hfound'⟩ :=
          wordsExtent?_respace (hr'.blankRun hne') hws' hm (Nat.lt_of_not_le hle)
        rw [hfound' r hr.ne_nil hplain] at hnone'
        cases hnone'

end Respace

end Criteria
