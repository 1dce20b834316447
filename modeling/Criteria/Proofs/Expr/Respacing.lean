import Criteria.Proofs.Expr.Boundary

/-!
# Blanks for other blanks

Blanks outside of strings may be replaced by other ones: the text still has lexemes, and it has the
same ones unless the blanks stand where plain ones are inside an operator of several words. There a
run of plain blanks belongs to the operator, and any other run cuts it into its words.
-/

namespace Criteria

open Text

/-! ## Lexemes and words at the start of a text -/

namespace Lexed

variable {c : Char} {cs : List Char} {ls : List Lexeme}

theorem blank_iff (hc : isBlank c = true) : Lexed (c :: cs) ls ↔ Lexed cs ls := by
  constructor
  · intro h
    cases h with
    | blank _ h => exact h
    | lexeme hc' => exact absurd hc (by rw [hc']; decide)
  · exact .blank hc

theorem blanks_iff {r : List Char} (hr : ∀ d ∈ r, isBlank d = true) :
    Lexed (r ++ cs) ls ↔ Lexed cs ls := by
  induction r with
  | nil => exact Iff.rfl
  | cons d r ih =>
    rw [List.cons_append, blank_iff (hr d (List.mem_cons_self ..))]
    exact ih fun e he => hr e (List.mem_cons_of_mem d he)

theorem lexeme_iff {l : Lexeme} {n : Nat} (hc : isBlank c = false)
    (hread : Lexeme.read c cs = .ok (l, n)) :
    Lexed (c :: cs) ls ↔ ∃ ms, Lexed (cs.drop n) ms ∧ ls = l :: ms := by
  constructor
  · intro h
    cases h with
    | blank hc' _ => exact absurd hc' (by rw [hc]; decide)
    | lexeme _ hread' h =>
      cases hread.symm.trans hread'
      exact ⟨_, h, rfl⟩
  · intro h
    obtain ⟨ms, hms, rfl⟩ := h
    exact .lexeme hc hread hms

/-- The lexeme that is all of `c :: x`, and those behind it. -/
theorem lexeme_append_iff {x s : List Char} {l : Lexeme} (hc : isBlank c = false)
    (hread : Lexeme.read c (x ++ s) = .ok (l, x.length)) :
    Lexed (c :: (x ++ s)) ls ↔ ∃ ms, Lexed s ms ∧ ls = l :: ms := by
  rw [lexeme_iff hc hread, List.drop_left]

end Lexed

theorem not_isBlank_of_isNameStart {c : Char} (hc : isNameStart c = true) : isBlank c = false := by
  rw [Bool.eq_false_iff]
  exact not_isBlank_of_isNameChar (isNameChar_of_isNameStart hc)

theorem read_of_readWords? {c : Char} {cs : List Char} {p : Spelling} {n : Nat}
    (h : Lexeme.readWords? (c :: cs) = some (p, n)) :
    isNameStart c = true ∧ Lexeme.read c cs = .ok (.operator p, n - 1) := by
  cases hc : isNameStart c with
  | true =>
    rw [read_of_isNameStart hc, h]
    exact ⟨rfl, rfl⟩
  | false =>
    rw [readWords?_of_not_isNameStart hc] at h
    cases h

/-- A word in front of something else than a name character is a lexeme of its own, unless more
words belong to it. -/
theorem read_word {c : Char} {x s : List Char} (hc : isNameStart c = true)
    (hx : ∀ d ∈ x, isNameChar d = true) (hs : NoNameChar s)
    (hwords : ∀ b, Lexeme.readWords? (c :: x ++ s) = some b → b.2 ≤ (c :: x).length) :
    ∃ l, Lexeme.read c (x ++ s) = .ok (l, x.length) := by
  rw [read_of_isNameStart hc, takeWhile_isNameChar hx hs]
  cases hb : Lexeme.readWords? (c :: (x ++ s)) with
  | none => exact ⟨_, rfl⟩
  | some b =>
    obtain ⟨p, n⟩ := b
    obtain ⟨ws, u, t, -, hws, hcs, hu, ht, hn⟩ := words_of_readWords? hb
    have hle := hwords _ hb
    obtain ⟨y, hy, rfl⟩ := eq_append_of_le (show u ++ t = (c :: x) ++ s from hcs.symm) (hn ▸ hle)
    have hnil : y = [] := by
      cases y with
      | nil => rfl
      | cons d y =>
        have hd : isNameChar d = true := by
          have hmem : d ∈ c :: x := by rw [hy]; simp
          rcases List.mem_cons.mp hmem with rfl | hmem
          · exact isNameChar_of_isNameStart hc
          · exact hx d hmem
        have hnot := ht d rfl
        rw [hd] at hnot
        cases hnot
    subst hnil
    rw [List.append_nil] at hy
    refine ⟨.operator p, ?_⟩
    have hlength : n = x.length + 1 := by
      rw [← List.length_cons (a := c), hy]
      exact hn
    simp only [hlength, Nat.add_sub_cancel]

/-! ## Operators of two words -/

theorem words_singleton {w : String} {u : List Char} (h : Words [w] u) : u = w.toList := by
  cases h with
  | last w => rfl
  | gap _ _ h => cases h

theorem Words.length_pos {ws : List String} {u : List Char} (h : Words ws u) : 0 < ws.length := by
  cases h <;> exact Nat.succ_pos _

theorem length_words {p : Spelling × List String} (hp : p ∈ Spelling.inWords) :
    p.2.length ≤ 2 := by
  have hall : ∀ p ∈ Spelling.inWords, p.2.length ≤ 2 := by decide
  exact hall p hp

/-- No operator of two words starts with the second word of one. -/
theorem not_pair_of_second {p q : Spelling} {v w : String} {ws : List String}
    (hp : (p, [v, w]) ∈ Spelling.inWords) (hq : (q, w :: ws) ∈ Spelling.inWords) : ws = [] := by
  have hall : ∀ p ∈ Spelling.inWords, ∀ q ∈ Spelling.inWords,
      p.2.length = 2 → q.2.head? = p.2[1]? → q.2.length = 1 := by decide
  have hlength := hall _ hp _ hq rfl rfl
  exact List.eq_nil_of_length_eq_zero (Nat.succ.inj hlength)

/-- The second word of an operator of two words has no more words behind it. -/
theorem readWords?_second {p : Spelling} {v w : String} (hp : (p, [v, w]) ∈ Spelling.inWords)
    {t : List Char} (ht : NoNameChar t) {b : Spelling × Nat}
    (h : Lexeme.readWords? (w.toList ++ t) = some b) : b.2 ≤ w.toList.length := by
  have hw : IsWord w := isWord_of_mem hp (by simp)
  obtain ⟨ws, u, t', hq, hws, hcs, hu, -, hb⟩ := words_of_readWords? h
  rw [hb]
  rcases append_cases hcs.symm with ⟨y, hy, -⟩ | ⟨d, y, hy, htext⟩
  · rw [hy, List.length_append]
    exact Nat.le_add_right ..
  · exfalso
    have hd : isNameChar d = false := ht d (by rw [htext]; rfl)
    cases hu with
    | last v' =>
      have hname := (hws v' (List.mem_singleton_self v')).chars d (by rw [hy]; simp)
      rw [hd] at hname
      cases hname
    | @gap v' ws g u' hg hplain hu' =>
      have hv' := hws v' (List.mem_cons_self ..)
      have hgap : NoNameChar (g ++ (u' ++ t')) :=
        ((hplain.blankRun hg).apart _).noNameChar
      have hsame : v'.toList = w.toList := by
        have htake := congrArg (List.takeWhile isNameChar) hcs
        simp only [List.append_assoc] at htake
        rw [takeWhile_isNameChar hw.chars ht, takeWhile_isNameChar hv'.chars hgap] at htake
        exact htake.symm
      obtain rfl := String.toList_inj.mp hsame
      obtain rfl := not_pair_of_second hp hq
      cases hu'

theorem BlankRun.surround {r g₁ g₂ : List Char} (hr : BlankRun r) (h₁ : Plain g₁) (h₂ : Plain g₂) :
    BlankRun (g₁ ++ (r ++ g₂)) where
  ne_nil := by simp [hr.ne_nil]
  blank c hc := by
    rcases List.mem_append.mp hc with hc | hc
    · exact isBlank_of_isPlainBlank (h₁ c hc)
    · rcases List.mem_append.mp hc with hc | hc
      · exact hr.blank c hc
      · exact isBlank_of_isPlainBlank (h₂ c hc)

/-- The two words of an operator are lexemes of their own over blanks that are not all plain. -/
theorem lexed_apart {p : Spelling} {v w : String} (hp : (p, [v, w]) ∈ Spelling.inWords)
    {t : List Char} (ht : NoNameChar t) :
    ∃ l₁ l₂, ∀ g, BlankRun g → ¬ Plain g → ∀ ls,
      (Lexed (v.toList ++ (g ++ (w.toList ++ t))) ls ↔ ∃ ms, Lexed t ms ∧ ls = l₁ :: l₂ :: ms) := by
  obtain ⟨c, x, hv, hc, hx⟩ : IsWord v := isWord_of_mem hp (by simp)
  obtain ⟨d, y, hw, hd, hy⟩ : IsWord w := isWord_of_mem hp (by simp)
  have hsecond : ∀ b, Lexeme.readWords? (d :: y ++ t) = some b → b.2 ≤ (d :: y).length := by
    rw [← hw]
    exact fun b => readWords?_second hp ht
  have hfirst : ∀ b, Lexeme.readWords? (c :: x ++ []) = some b → b.2 ≤ (c :: x).length := by
    rw [List.append_nil]
    exact fun b => readWords?_le
  obtain ⟨l₁, h₁⟩ := read_word hc hx apart_nil.noNameChar hfirst
  obtain ⟨l₂, h₂⟩ := read_word hd hy ht hsecond
  refine ⟨l₁, l₂, fun g hg hplain ls => ?_⟩
  have hread : Lexeme.read c (x ++ (g ++ (w.toList ++ t))) = .ok (l₁, x.length) := by
    refine read_swap h₁ (Nat.le_refl _) (fun _ => apart_nil.noNameChar) (hg.apart _) ?_
    intro b hb
    obtain ⟨ws, u, t', -, hws, hcs, hu, -, hb'⟩ := words_of_readWords? hb
    rw [hb']
    refine Nat.le_of_not_lt fun hlt => hplain ?_
    obtain ⟨z, -, -, hall⟩ := hu.cross hws hg.blank hcs.symm hlt
    exact hall
  rw [hv, List.cons_append, Lexed.lexeme_append_iff (not_isBlank_of_isNameStart hc) hread]
  simp only [Lexed.blanks_iff hg.blank, hw, List.cons_append,
    Lexed.lexeme_append_iff (not_isBlank_of_isNameStart hd) h₂]
  constructor
  · intro h
    obtain ⟨ns, ⟨ms, hms, rfl⟩, rfl⟩ := h
    exact ⟨ms, hms, rfl⟩
  · intro h
    obtain ⟨ms, hms, rfl⟩ := h
    exact ⟨l₂ :: ms, ⟨ms, hms, rfl⟩, rfl⟩

/-- Where words go on over a space, any run of plain blanks is inside their operator and any other
run stands between two lexemes. -/
theorem lexed_gap {c : Char} {x b : List Char} {p : Spelling} {n : Nat}
    (h : Lexeme.readWords? (c :: x ++ ([' '] ++ b)) = some (p, n)) (hlt : (c :: x).length < n) :
    ∃ t l₁ l₂, ∀ r, BlankRun r → ∀ ls,
      (Plain r → (Lexed (c :: x ++ (r ++ b)) ls ↔ ∃ ms, Lexed t ms ∧ ls = .operator p :: ms)) ∧
      (¬ Plain r → (Lexed (c :: x ++ (r ++ b)) ls ↔ ∃ ms, Lexed t ms ∧ ls = l₁ :: l₂ :: ms)) := by
  obtain ⟨ws, z, t, hp, rfl, ht, hwords, -, hfound⟩ :=
    readWords?_respace blankRun_space h hlt
  have hws : ∀ w ∈ ws, IsWord w := fun w hw => isWord_of_mem hp hw
  obtain ⟨ws₁, ws₂, u₁, u₂, g₁, g₂, rfl, hx, rfl, h₁, h₂, hg₁, hg₂⟩ :=
    hwords.split hws rfl blankRun_space.ne_nil plain_space
  obtain ⟨v, rfl⟩ : ∃ v, ws₁ = [v] := by
    have hlength := length_words hp
    have hpos₁ := h₁.length_pos
    have hpos₂ := h₂.length_pos
    rw [List.length_append] at hlength
    exact List.length_eq_one_iff.mp (by omega)
  obtain ⟨w, rfl⟩ : ∃ w, ws₂ = [w] := by
    have hlength := length_words hp
    have hpos₂ := h₂.length_pos
    rw [List.length_append, List.length_singleton] at hlength
    exact List.length_eq_one_iff.mp (by omega)
  obtain rfl := words_singleton h₁
  obtain rfl := words_singleton h₂
  have hc : isNameStart c = true := (read_of_readWords? h).1
  obtain ⟨l₁, l₂, hapart⟩ := lexed_apart hp ht
  refine ⟨t, l₁, l₂, fun r hr ls => ⟨fun hplain => ?_, fun hplain => ?_⟩⟩
  · have hwords : Lexeme.readWords? (c :: (x ++ (r ++ (g₂ ++ w.toList ++ t)))) = _ :=
      hfound r hr.ne_nil hplain
    have hread : Lexeme.read c (x ++ (r ++ (g₂ ++ w.toList ++ t))) =
        .ok (.operator p, (x ++ (r ++ (g₂ ++ w.toList))).length) := (read_of_readWords? hwords).2
    have htext : x ++ (r ++ (g₂ ++ w.toList ++ t)) = (x ++ (r ++ (g₂ ++ w.toList))) ++ t := by
      simp only [List.append_assoc]
    rw [List.cons_append, htext]
    rw [htext] at hread
    exact Lexed.lexeme_append_iff (not_isBlank_of_isNameStart hc) hread
  · have hgap : BlankRun (g₁ ++ (r ++ g₂)) := hr.surround hg₁ hg₂
    have hnot : ¬ Plain (g₁ ++ (r ++ g₂)) := by
      intro hall
      exact hplain fun d hd => hall d (by simp [hd])
    have htext : c :: x ++ (r ++ (g₂ ++ w.toList ++ t)) =
        v.toList ++ ((g₁ ++ (r ++ g₂)) ++ (w.toList ++ t)) := by
      rw [hx]
      simp only [List.append_assoc]
    rw [htext]
    exact hapart _ hgap hnot ls

/-- Where no words go on over a space, none go on over other blanks. -/
theorem readWords?_le_of_not_gap {x b : List Char}
    (hgap : ¬ ∃ p n, Lexeme.readWords? (x ++ ([' '] ++ b)) = some (p, n) ∧ x.length < n)
    {s : List Char} (hs : BlankRun s) {q : Spelling × Nat}
    (hq : Lexeme.readWords? (x ++ (s ++ b)) = some q) : q.2 ≤ x.length := by
  refine Nat.le_of_not_lt fun hlt => hgap ?_
  obtain ⟨ws, z, t, -, -, -, -, -, hfound⟩ := readWords?_respace hs hq hlt
  refine ⟨_, _, hfound [' '] blankRun_space.ne_nil plain_space, ?_⟩
  simp only [List.length_append, List.length_cons]
  omega

/-! ## Places in texts -/

/-- In the text that starts with `a` and goes on with `s`, the place between the two is inside the
lexeme `l`. -/
inductive Inside (l : Lexeme) (s : List Char) : List Char → Prop
  | here {c : Char} {x : List Char} {n : Nat} : isBlank c = false →
      Lexeme.read c (x ++ s) = .ok (l, n) → x.length < n → Inside l s (c :: x)
  | blank {c : Char} {x : List Char} : isBlank c = true → Inside l s x → Inside l s (c :: x)
  | lexeme {c : Char} {x y : List Char} {l' : Lexeme} : isBlank c = false →
      Lexeme.read c (x ++ (y ++ s)) = .ok (l', x.length) → Inside l s y → Inside l s (c :: (x ++ y))

namespace Inside

variable {l : Lexeme} {s : List Char}

theorem not_nil : ¬ Inside l s [] := nofun

theorem blank_iff {c : Char} {x : List Char} (hc : isBlank c = true) :
    Inside l s (c :: x) ↔ Inside l s x := by
  constructor
  · intro h
    cases h with
    | here hc' => exact absurd hc (by rw [hc']; decide)
    | blank _ h => exact h
    | lexeme hc' => exact absurd hc (by rw [hc']; decide)
  · exact .blank hc

theorem lexeme_iff {c : Char} {x y : List Char} {l' : Lexeme} (hc : isBlank c = false)
    (hread : Lexeme.read c (x ++ (y ++ s)) = .ok (l', x.length)) :
    Inside l s (c :: (x ++ y)) ↔ Inside l s y := by
  constructor
  · intro h
    generalize hcs : c :: (x ++ y) = cs at h
    cases h with
    | @here d u n _ hread' hlt =>
      obtain ⟨rfl, rfl⟩ := List.cons.inj hcs
      rw [List.append_assoc, hread] at hread'
      cases hread'
      rw [List.length_append] at hlt
      omega
    | blank hc' _ =>
      obtain ⟨rfl, rfl⟩ := List.cons.inj hcs
      exact absurd hc' (by rw [hc]; decide)
    | @lexeme d u v m _ hread' h =>
      obtain ⟨rfl, htext⟩ := List.cons.inj hcs
      have hsame : Lexeme.read c (x ++ (y ++ s)) = .ok (m, u.length) := by
        rw [← hread', ← List.append_assoc, htext, List.append_assoc]
      rw [hread] at hsame
      simp only [Except.ok.injEq, Prod.mk.injEq] at hsame
      obtain ⟨rfl, rfl⟩ := List.append_inj htext hsame.2
      exact h
  · exact .lexeme hc hread

/-- A place is inside of one lexeme only. -/
theorem unique {c : Char} {x : List Char} {l' : Lexeme} {n : Nat} (hc : isBlank c = false)
    (hread : Lexeme.read c (x ++ s) = .ok (l', n)) (hlt : x.length < n) (h : Inside l s (c :: x)) :
    l = l' := by
  generalize hcs : c :: x = cs at h
  cases h with
  | here _ hread' _ =>
    obtain ⟨rfl, rfl⟩ := List.cons.inj hcs
    rw [hread] at hread'
    cases hread'
    rfl
  | blank hc' _ =>
    obtain ⟨rfl, rfl⟩ := List.cons.inj hcs
    exact absurd hc' (by rw [hc]; decide)
  | lexeme _ hread' _ =>
    obtain ⟨rfl, rfl⟩ := List.cons.inj hcs
    rw [List.append_assoc, hread'] at hread
    cases hread
    rw [List.length_append] at hlt
    omega

end Inside

/-- In the text that starts with `a` and goes on with `b`, blanks between the two are in a gap of an
operator if they are plain. -/
def InGap (a b : List Char) : Prop := ∃ p, Inside (.operator p) ([' '] ++ b) a

section Respace

variable {a b r r' : List Char} (hr : BlankRun r) (hr' : BlankRun r') {ls : List Lexeme}

include hr hr'

omit hr' in
/-- A lexeme that starts in front of blanks and is neither a string nor words over them ends in front
of them, whatever blanks they are. -/
theorem read_split {c : Char} {l : Lexeme} {n : Nat}
    (hwords : ∀ s, BlankRun s → ∀ q, Lexeme.readWords? (c :: a ++ (s ++ b)) = some q →
      q.2 ≤ (c :: a).length)
    (hstring : a.length < n → ∀ v, l ≠ .string v)
    (h : Lexeme.read c (a ++ (r ++ b)) = .ok (l, n)) :
    ∃ x y, a = x ++ y ∧ n = x.length ∧
      ∀ s, BlankRun s → Lexeme.read c (x ++ (y ++ (s ++ b))) = .ok (l, x.length) := by
  have hle : n ≤ a.length := by
    refine Nat.le_of_not_lt fun hlt => ?_
    rcases read_crosses h hlt (hr.apart b) with ⟨v, hv⟩ | ⟨p, -, hp⟩
    · exact hstring hlt v hv
    · have hend := hwords r hr _ hp
      simp only [List.length_cons] at hend
      omega
  have hlength : (a.take n).length = n := List.length_take_of_le hle
  refine ⟨a.take n, a.drop n, (List.take_append_drop ..).symm, hlength.symm, fun s hs => ?_⟩
  rw [← List.append_assoc, List.take_append_drop, hlength]
  exact read_swap h hle (fun _ => (hr.apart b).noNameChar) (hs.apart b) (hwords s hs)

/-- Blanks in a gap are replaced. -/
theorem Lexed.respace_gap {c : Char} {p : Spelling} {n : Nat}
    (hwords : Lexeme.readWords? (c :: a ++ ([' '] ++ b)) = some (p, n))
    (hlt : (c :: a).length < n) (h : Lexed (c :: a ++ (r ++ b)) ls) :
    ∃ ls', Lexed (c :: a ++ (r' ++ b)) ls' ∧ (ls' = ls ↔ (Plain r ↔ Plain r')) := by
  obtain ⟨t, l₁, l₂, hgap⟩ := lexed_gap hwords hlt
  by_cases hplain : Plain r
  · obtain ⟨ms, hms, rfl⟩ := ((hgap r hr ls).1 hplain).mp h
    by_cases hplain' : Plain r'
    · refine ⟨.operator p :: ms, ((hgap r' hr' _).1 hplain').mpr ⟨ms, hms, rfl⟩, ?_⟩
      simp only [hplain, hplain']
    · refine ⟨l₁ :: l₂ :: ms, ((hgap r' hr' _).2 hplain').mpr ⟨ms, hms, rfl⟩, ?_⟩
      simp [hplain, hplain']
  · obtain ⟨ms, hms, rfl⟩ := ((hgap r hr ls).2 hplain).mp h
    by_cases hplain' : Plain r'
    · refine ⟨.operator p :: ms, ((hgap r' hr' _).1 hplain').mpr ⟨ms, hms, rfl⟩, ?_⟩
      simp [hplain, hplain']
    · refine ⟨l₁ :: l₂ :: ms, ((hgap r' hr' _).2 hplain').mpr ⟨ms, hms, rfl⟩, ?_⟩
      simp only [hplain, hplain']

/-- Blanks that are not inside a string may be replaced by other ones. -/
theorem Lexed.respace (h : Lexed (a ++ (r ++ b)) ls)
    (hstring : ∀ v, ¬ Inside (.string v) (r ++ b) a) :
    ∃ ls', Lexed (a ++ (r' ++ b)) ls' ∧ (ls' = ls ↔ (InGap a b → (Plain r ↔ Plain r'))) := by
  unfold InGap
  induction hn : a.length using Nat.strongRecOn generalizing a ls with
  | _ n ih =>
    subst hn
    cases a with
    | nil =>
      rw [List.nil_append, blanks_iff hr.blank] at h
      refine ⟨ls, (blanks_iff hr'.blank).mpr h, ?_⟩
      simp only [Inside.not_nil, exists_false, false_implies]
    | cons c a =>
      cases hc : isBlank c with
      | true =>
        rw [List.cons_append, blank_iff hc] at h
        simp only [Inside.blank_iff hc] at hstring ⊢
        obtain ⟨ls', hls', hsame⟩ := ih _ (Nat.lt_succ_self _) h hstring rfl
        exact ⟨ls', (blank_iff hc).mpr hls', hsame⟩
      | false =>
        by_cases hgap : ∃ p n, Lexeme.readWords? (c :: a ++ ([' '] ++ b)) = some (p, n) ∧
            (c :: a).length < n
        · obtain ⟨p, n, hwords, hlt⟩ := hgap
          have hinside : ∃ p, Inside (.operator p) ([' '] ++ b) (c :: a) := by
            refine ⟨p, .here hc (read_of_readWords? hwords).2 ?_⟩
            rw [List.length_cons] at hlt
            omega
          obtain ⟨ls', hls', hsame⟩ := respace_gap hr hr' hwords hlt h
          refine ⟨ls', hls', ?_⟩
          rw [hsame]
          exact ⟨fun hiff _ => hiff, fun hiff => hiff hinside⟩
        · rw [List.cons_append] at h
          cases h with
          | blank hc' _ => exact absurd hc' (by rw [hc]; decide)
          | @lexeme _ _ l n ms _ hread hrest =>
            have hstring' : a.length < n → ∀ v, l ≠ .string v := by
              rintro hlt v rfl
              exact hstring v (.here hc hread hlt)
            obtain ⟨x, y, rfl, rfl, hreads⟩ :=
              read_split hr (fun s hs q => readWords?_le_of_not_gap hgap hs) hstring' hread
            rw [List.append_assoc, List.drop_left] at hrest
            simp only [Inside.lexeme_iff hc (hreads r hr)] at hstring
            have hlt : y.length < (c :: (x ++ y)).length := by
              rw [List.length_cons, List.length_append]
              omega
            obtain ⟨ms', hms', hsame⟩ := ih _ hlt hrest hstring rfl
            refine ⟨l :: ms', ?_, ?_⟩
            · rw [List.cons_append, List.append_assoc]
              exact (lexeme_append_iff hc (hreads r' hr')).mpr ⟨ms', hms', rfl⟩
            · simp only [Inside.lexeme_iff hc (hreads [' '] blankRun_space), List.cons.injEq,
                true_and]
              exact hsame

end Respace

/-- Blanks that are not inside a string may be replaced by any others. The text has the same
lexemes then, except where the blanks are in a gap of an operator: there it has them exactly if both
runs are plain or neither is. -/
theorem Token.ofText_respace {a b r r' : String} {text : TokenList} (hr : BlankRun r.toList)
    (hr' : BlankRun r'.toList) (h : ofText (a ++ r ++ b) = .ok text)
    (hstring : ∀ v, ¬ Inside (.string v) (r ++ b).toList a.toList) :
    ∃ text', ofText (a ++ r' ++ b) = .ok text' ∧
      (text'.tokens.map lexeme = text.tokens.map lexeme ↔
        (InGap a.toList b.toList → (Plain r.toList ↔ Plain r'.toList))) := by
  have hlexed : Lexed (a ++ r ++ b).toList (text.tokens.map lexeme) := Lexed.of_scan h
  simp only [String.toList_append, List.append_assoc] at hlexed hstring
  obtain ⟨ls', hls', hsame⟩ := hlexed.respace hr hr' hstring
  obtain ⟨text', htext', rfl⟩ := hls'.scan_eq 0
  refine ⟨text', ?_, hsame⟩
  rw [ofText, String.toList_append, String.toList_append, List.append_assoc]
  exact htext'

/-- A tab and a line feed for a space in the gap of an operator. -/
theorem Token.ofText_respace_gap :
    ∃ text text', ofText ("x not" ++ " " ++ "in ' '") = .ok text ∧
      ofText ("x not" ++ "\t\n" ++ "in ' '") = .ok text' ∧
      text'.tokens.map lexeme = text.tokens.map lexeme := by
  have hlexed : Lexed ("x not" ++ " " ++ "in ' '").toList
      [.name "x", .operator .notInWords, .string " "] := by
    show Lexed ['x', ' ', 'n', 'o', 't', ' ', 'i', 'n', ' ', '\'', ' ', '\''] _
    exact .lexeme rfl rfl (.blank rfl (.lexeme rfl rfl (.blank rfl (.lexeme rfl rfl .nil))))
  obtain ⟨text, htext, -⟩ := hlexed.scan_eq 0
  have hr : BlankRun " ".toList := blankRun_space
  have hr' : BlankRun "\t\n".toList := ⟨by decide, List.all_eq_true.mp (by decide)⟩
  have hstring : ∀ v, ¬ Inside (.string v) (" " ++ "in ' '").toList "x not".toList := by
    intro v h
    change Inside (.string v) [' ', 'i', 'n', ' ', '\'', ' ', '\''] ('x' :: ([] ++ _)) at h
    rw [Inside.lexeme_iff rfl rfl, Inside.blank_iff rfl] at h
    cases h.unique rfl rfl (by decide)
  obtain ⟨text', htext', hsame⟩ := ofText_respace hr hr' htext hstring
  refine ⟨text, text', htext, htext', hsame.mpr fun _ => iff_of_true plain_space ?_⟩
  exact List.all_eq_true.mp (by decide)

/-- Not all blanks are alike in the gap of an operator. -/
theorem Token.ofText_respace_no_break :
    ¬ ∀ (a b r r' : String) (text : TokenList), BlankRun r.toList → BlankRun r'.toList →
      ofText (a ++ r ++ b) = .ok text → (∀ v, ¬ Inside (.string v) (r ++ b).toList a.toList) →
      ∃ text', ofText (a ++ r' ++ b) = .ok text' ∧
        text'.tokens.map lexeme = text.tokens.map lexeme := by
  intro hall
  have hone : Lexed ("not" ++ " " ++ "in").toList [.operator .notInWords] := by
    show Lexed ['n', 'o', 't', ' ', 'i', 'n'] _
    exact .lexeme rfl rfl .nil
  have htwo : Lexed ("not" ++ "\u00a0" ++ "in").toList [.operator .notWord, .operator .inWord] := by
    have hwords : Lexeme.readWords? ['n', 'o', 't', '\u00a0', 'i', 'n'] = some (.notWord, 3) := by
      decide +kernel
    show Lexed ['n', 'o', 't', '\u00a0', 'i', 'n'] _
    exact .lexeme rfl (read_of_readWords? hwords).2 (.blank rfl (.lexeme rfl rfl .nil))
  have hr : BlankRun " ".toList := blankRun_space
  have hr' : BlankRun "\u00a0".toList := ⟨by decide, List.all_eq_true.mp (by decide)⟩
  have hstring : ∀ v, ¬ Inside (.string v) (" " ++ "in").toList "not".toList := by
    intro v h
    change Inside (.string v) [' ', 'i', 'n'] ['n', 'o', 't'] at h
    cases h.unique rfl rfl (by decide)
  obtain ⟨text, htext, hlexemes⟩ := hone.scan_eq 0
  obtain ⟨text', htext', hsame⟩ := hall "not" "in" " " "\u00a0" text hr hr' htext hstring
  obtain ⟨text'', htext'', hlexemes'⟩ := htwo.scan_eq 0
  cases htext'.symm.trans htext''
  rw [hlexemes, hlexemes'] at hsame
  cases hsame

end Criteria
