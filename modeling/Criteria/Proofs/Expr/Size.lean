import Criteria.Proofs.Expr.Nesting
import Criteria.Language.Cache

/-!
# The size of trees that are read

Every lexeme pays for two nodes, and that is all a tree has, but for the short form of a
choice: what stands before it is both the condition and the outcome, and the tree has it
twice. Where such choices are put inside each other the tree doubles with each of them, so
that a text short enough to be kept may have a tree that is not.
-/

namespace Criteria.Expr

mutual

/-- The nodes of a tree. -/
@[simp] def nodes : Expr → Nat
  | const _ | name _ => 1
  | array items => nodesOfAll items + 1
  | hash entries => nodesOfEntries entries + 1
  | unary _ e => nodes e + 1
  | binary _ l r => nodes l + nodes r + 1
  | logical _ operands => nodesOfAll operands + 1
  | conditional c y n => nodes c + nodes y + nodes n + 1
  | call _ arguments => nodesOfAll arguments + 1
  | access target key _ => nodes target + nodes key + 1

@[simp] def nodesOfAll : List Expr → Nat
  | [] => 0
  | e :: es => nodes e + nodesOfAll es

@[simp] def nodesOfEntries : List (String × Expr) → Nat
  | [] => 0
  | (_, e) :: es => nodes e + nodesOfEntries es

end

theorem nodesOfAll_append (xs ys : List Expr) :
    nodesOfAll (xs ++ ys) = nodesOfAll xs + nodesOfAll ys := by
  induction xs with
  | nil => simp
  | cons x xs ih => simp [ih, Nat.add_assoc]

theorem nodes_chain_le (op : BinaryOp) (l r : Expr) :
    nodes (chain op l r) ≤ nodes l + nodes r + 1 := by
  have hpair : nodes (.logical op [l, r]) = nodes l + nodes r + 1 := by simp
  unfold chain
  split
  · next op' operands =>
    split
    · simp only [nodes, nodesOfAll_append, nodesOfAll]
      omega
    · exact Nat.le_of_eq hpair
  · exact Nat.le_of_eq hpair

theorem nodes_join_le (op : BinaryOp) (l r : Expr) :
    nodes (join op l r) ≤ nodes l + nodes r + 1 := by
  unfold join
  split
  · exact nodes_chain_le op l r
  · exact Nat.le_of_eq (by simp)

/-! ## What lexemes pay for -/

/-- How often a question mark has a colon behind it. -/
def shortChoices : List Lexeme → Nat
  | .punctuation .question :: .punctuation .colon :: ls => shortChoices ls + 1
  | _ :: ls => shortChoices ls
  | [] => 0

theorem shortChoices_le_cons (l : Lexeme) (ls : List Lexeme) :
    shortChoices ls ≤ shortChoices (l :: ls) := by
  rw [shortChoices.eq_def (l :: ls)]
  split
  · next ls' h =>
    cases h
    exact Nat.le_succ _
  · next h =>
    cases h
    exact Nat.le_refl _
  · next h => cases h

/-- The lexemes from `ls` to `rest`, together with what was `paid` before them, pay for
`nodes`: two for each, and twice as many for each short choice. -/
def Pays (ls rest : List Lexeme) (paid nodes : Nat) : Prop :=
  ∃ t d, rest.length + t ≤ ls.length ∧ shortChoices rest + d ≤ shortChoices ls ∧
    nodes ≤ 2 ^ d * (paid + 2 * t)

namespace Pays

variable {ls ls₁ rest : List Lexeme} {a b k m n : Nat}

theorem refl (ls : List Lexeme) (n : Nat) : Pays ls ls n n :=
  ⟨0, 0, Nat.le_refl _, Nat.le_refl _, by simp⟩

theorem cons (l : Lexeme) (h : Pays ls rest a n) (ha : a ≤ b + 2) : Pays (l :: ls) rest b n := by
  obtain ⟨t, d, ht, hd, hn⟩ := h
  refine ⟨t + 1, d, by simp only [List.length_cons]; omega,
    Nat.le_trans hd (shortChoices_le_cons l ls), Nat.le_trans hn ?_⟩
  exact Nat.mul_le_mul_left _ (by omega)

/-- What goes on with something that was paid for. -/
theorem append (h₁ : Pays ls ls₁ 0 m) (h₂ : Pays ls₁ rest a n) (ha : a ≤ b + m) :
    Pays ls rest b n := by
  obtain ⟨t₁, d₁, ht₁, hd₁, hm⟩ := h₁
  obtain ⟨t₂, d₂, ht₂, hd₂, hn⟩ := h₂
  refine ⟨t₁ + t₂, d₁ + d₂, by omega, by omega, ?_⟩
  have hpos : 0 < 2 ^ d₁ := Nat.two_pow_pos d₁
  have hrest : b + 2 * t₂ ≤ 2 ^ d₁ * (b + 2 * t₂) := Nat.le_mul_of_pos_left _ hpos
  calc
    n ≤ 2 ^ d₂ * (a + 2 * t₂) := hn
    _ ≤ 2 ^ d₂ * (2 ^ d₁ * (0 + 2 * t₁) + 2 ^ d₁ * (b + 2 * t₂)) :=
      Nat.mul_le_mul_left _ (by omega)
    _ = 2 ^ (d₁ + d₂) * (b + 2 * (t₁ + t₂)) := by
      rw [← Nat.mul_add, Nat.pow_add, Nat.mul_comm (2 ^ d₁) (2 ^ d₂), Nat.mul_assoc]
      congr 2
      omega

/-- What stands side by side. -/
theorem add (h₁ : Pays ls ls₁ 0 m) (h₂ : Pays ls₁ rest 0 n) (hk : k ≤ m + n) :
    Pays ls rest 0 k := by
  have hcarry : Pays ls₁ rest m k := by
    obtain ⟨t, d, ht, hd, hn⟩ := h₂
    refine ⟨t, d, ht, hd, ?_⟩
    have hpos : 0 < 2 ^ d := Nat.two_pow_pos d
    have hm : m ≤ 2 ^ d * m := Nat.le_mul_of_pos_left _ hpos
    calc
      k ≤ m + n := hk
      _ ≤ 2 ^ d * m + 2 ^ d * (0 + 2 * t) := by omega
      _ = 2 ^ d * (m + 2 * t) := by rw [← Nat.mul_add, Nat.zero_add]
  exact h₁.append hcarry (Nat.le_add_left _ _)

/-- A short choice pays for what stands before it once more. -/
theorem short (h : Pays ls rest (2 * a) n) :
    Pays (.punctuation .question :: .punctuation .colon :: ls) rest a n := by
  obtain ⟨t, d, ht, hd, hn⟩ := h
  refine ⟨t + 2, d + 1, by simp only [List.length_cons]; omega, by rw [shortChoices]; omega, ?_⟩
  calc
    n ≤ 2 ^ d * (2 * a + 2 * t) := hn
    _ ≤ 2 ^ d * (2 * (a + 2 * (t + 2))) := Nat.mul_le_mul_left _ (by omega)
    _ = 2 ^ (d + 1) * (a + 2 * (t + 2)) := by rw [Nat.pow_succ, Nat.mul_assoc]

end Pays

/-- What is paid for a phrase before it begins: the tree that it goes on with. -/
def Phrase.paid : Phrase → Nat
  | .accesses e | .operators _ e | .choices e => e.nodes + 1
  | .expression _ | .primary | .elements .. | .entries _ => 0

variable {known : String → Bool}

theorem Derives.pays {phrase : Phrase} {ls rest : List Lexeme} {v : Expr} {used need : Nat}
    (h : Derives known phrase ls v rest used need) : Pays ls rest phrase.paid (v.nodes + 1) := by
  induction h with
  | full _ _ _ ih₁ ih₂ ih₃ =>
    exact (ih₁.append ih₂ (Nat.le_add_left _ 0)).append ih₃ (Nat.le_add_left _ 0)
  | operand _ _ _ ih₁ ih₂ => exact ih₁.append ih₂ (Nat.le_add_left _ 0)
  | unary _ _ _ ih₁ ih₂ =>
    simp only [Phrase.paid, nodes] at ih₂
    exact (ih₁.append (b := 1) ih₂ (by omega)).cons _ (by omega)
  | group _ _ ih₁ ih₂ =>
    have hclose := ih₂.cons (.punctuation .closeParen) (Nat.le_add_right _ 2)
    exact (ih₁.append hclose (Nat.le_add_left _ 0)).cons _ (Nat.zero_le _)
  | array _ _ ih₁ ih₂ | hash _ _ ih₁ ih₂ =>
    exact (ih₁.append ih₂ (Nat.le_add_left _ 0)).cons _ (Nat.zero_le _)
  | constant _ _ ih | name _ _ _ ih => exact ih.cons _ (Nat.le_refl 2)
  | call _ _ _ _ ih₁ ih₂ =>
    have hlist := (ih₁.append ih₂ (Nat.le_add_left _ 0)).cons (.punctuation .openParen)
      (Nat.zero_le 2)
    exact hlist.cons _ (Nat.zero_le _)
  | noAccess | noOperator | noChoice => exact .refl _ _
  | @property e _ _ _ _ _ _ _ _ ih =>
    simp only [Phrase.paid, nodes] at ih ⊢
    exact (ih.cons (b := e.nodes + 1) _ (by omega)).cons _ (by omega)
  | @index e key _ _ _ _ _ _ _ _ _ ih₁ ih₂ =>
    simp only [Phrase.paid, nodes] at ih₁ ih₂ ⊢
    have hclose := ih₂.cons (.punctuation .closeBracket) (Nat.le_add_right _ 2)
    exact (ih₁.append (b := e.nodes + 1) hclose (by omega)).cons _ (by omega)
  | @operator _ _ op e right _ _ _ _ _ _ _ _ _ _ _ ih₁ ih₂ =>
    have hjoin := nodes_join_le op e right
    simp only [Phrase.paid] at ih₁ ih₂ ⊢
    exact (ih₁.append (b := e.nodes + 1) ih₂ (by omega)).cons _ (by omega)
  | @shortChoice e _ _ _ _ _ _ _ _ _ ih₁ ih₂ =>
    simp only [Phrase.paid, nodes] at ih₁ ih₂ ⊢
    exact (ih₁.append (b := 2 * (e.nodes + 1)) ih₂ (by omega)).short
  | @choice e yes _ _ _ _ _ _ _ _ _ _ _ _ _ ih₁ ih₂ ih₃ =>
    simp only [Phrase.paid, nodes] at ih₁ ih₂ ih₃ ⊢
    have hno := (ih₂.append (b := e.nodes + yes.nodes + 1) ih₃ (by omega)).cons
      (.punctuation .colon) (Nat.le_add_right _ 2)
    exact (ih₁.append (b := e.nodes + 1) hno (by omega)).cons _ (by omega)
  | @openChoice e _ _ _ _ _ _ _ _ _ _ _ ih₁ ih₂ =>
    simp only [Phrase.paid, nodes] at ih₁ ih₂ ⊢
    exact (ih₁.append (b := e.nodes + 2) ih₂ (by omega)).cons _ (by omega)
  | noElements | noEntries =>
    simp only [Phrase.paid, nodes, nodesOfAll, nodesOfEntries]
    exact (Pays.refl _ 2).cons _ (Nat.le_refl 2)
  | lastComma | lastEntryComma =>
    simp only [Phrase.paid, nodes, nodesOfAll, nodesOfEntries]
    exact ((Pays.refl _ 2).cons (b := 0) _ (Nat.le_refl 2)).cons _ (Nat.zero_le 2)
  | firstElement _ _ _ ih₁ ih₂ =>
    simp only [Phrase.paid, nodes, nodesOfAll] at ih₁ ih₂ ⊢
    exact ih₁.add ih₂ (by omega)
  | element _ _ _ _ ih₁ ih₂ =>
    simp only [Phrase.paid, nodes, nodesOfAll] at ih₁ ih₂ ⊢
    exact (ih₁.add ih₂ (by omega)).cons _ (Nat.zero_le 2)
  | firstEntry _ _ _ ih₁ ih₂ =>
    simp only [Phrase.paid, nodes, nodesOfEntries] at ih₁ ih₂ ⊢
    exact ((ih₁.add ih₂ (by omega)).cons _ (Nat.zero_le 2)).cons _ (Nat.zero_le 2)
  | entry _ _ _ ih₁ ih₂ =>
    simp only [Phrase.paid, nodes, nodesOfEntries] at ih₁ ih₂ ⊢
    exact (((ih₁.add ih₂ (by omega)).cons _ (Nat.zero_le 2)).cons _ (Nat.zero_le 2)).cons _
      (Nat.zero_le 2)

/-! ## The largest trees -/

/-- The name `a` where nothing else is found, `k` times. -/
def fallbacks : Nat → Expr
  | 0 => .name "a"
  | k + 1 => .conditional (fallbacks k) (fallbacks k) (.name "a")

def fallbackText : Nat → String
  | 0 => "a"
  | k + 1 => "(" ++ fallbackText k ++ ") ?: a"

def fallbackLexemes : Nat → List Lexeme
  | 0 => [.name "a"]
  | k + 1 => .punctuation .openParen :: (fallbackLexemes k ++
      [.punctuation .closeParen, .punctuation .question, .punctuation .colon, .name "a"])

theorem nodes_fallbacks (k : Nat) : (fallbacks k).nodes + 2 = 3 * 2 ^ k := by
  induction k with
  | zero => rfl
  | succ k ih =>
    rw [Nat.pow_succ, ← Nat.mul_assoc, ← ih]
    simp only [fallbacks, nodes]
    omega

theorem length_fallbackLexemes (k : Nat) : (fallbackLexemes k).length = 5 * k + 1 := by
  induction k with
  | zero => rfl
  | succ k ih =>
    simp only [fallbackLexemes, List.length_cons, List.length_append, ih, List.length_nil]
    omega

theorem utf8ByteSize_fallbackText (k : Nat) : (fallbackText k).utf8ByteSize = 7 * k + 1 := by
  induction k with
  | zero => rfl
  | succ k ih =>
    have hopen : "(".utf8ByteSize = 1 := rfl
    have hclose : ") ?: a".utf8ByteSize = 6 := rfl
    rw [fallbackText, String.utf8ByteSize_append, String.utf8ByteSize_append, ih, hopen, hclose]
    omega

theorem legible_fallbackText (k : Nat) : Legible (fallbackText k).toList (fallbackLexemes k) := by
  induction k with
  | zero => exact fun _ _ hr h => Lexed.word (isReference_a.isName.spells hr) h
  | succ k ih =>
    intro r ls hr h
    have hname : Lexed ('a' :: r) (.name "a" :: ls) :=
      Lexed.word (w := ['a']) (isReference_a.isName.spells hr) h
    have hcolon := Lexed.mark (p := .colon) rfl hname.space
    have hquestion := Lexed.word (spells_punctuation .question (by simp [Punctuation.char])) hcolon
    have hclose := ih (follows_ends (p := .closeParen) rfl _)
      (Lexed.mark (p := .closeParen) rfl hquestion.space)
    simpa [fallbackText, fallbackLexemes, Punctuation.char]
      using Lexed.mark (p := .openParen) rfl hclose

theorem derives_fallbacks (known : String → Bool) (k : Nat) {rest : List Lexeme}
    (hrest : Stops 0 rest) :
    ∃ n, n ≤ k + 2 ∧
      Derives known (.expression 0) (fallbackLexemes k ++ rest) (fallbacks k) rest 0 n := by
  have dname : ∀ {rest : List Lexeme}, Stops 0 rest →
      Derives known (.expression 0) (.name "a" :: rest) (.name "a") rest 0 (1 + 0) :=
    fun hrest => Derives.expression
      (.name isReference_a.notConstant hrest.noCall (hrest.noAccess _)) hrest
  induction k generalizing rest with
  | zero => exact ⟨_, by omega, dname hrest⟩
  | succ k ih =>
    obtain ⟨n, hn, d⟩ := ih (stops_punctuation 0 (q := .closeParen) rfl
      (.punctuation .question :: .punctuation .colon :: .name "a" :: rest))
    have dgroup := Derives.group d (.noAccess (not_startsWith_punctuation (by decide))
      (not_startsWith_punctuation (by decide)))
    have dchoice := Derives.shortChoice (e := fallbacks k) (dname hrest)
      (.noChoice (hrest.noChoice rfl))
    have hlexemes : fallbackLexemes (k + 1) ++ rest = .punctuation .openParen ::
        (fallbackLexemes k ++ .punctuation .closeParen :: .punctuation .question ::
          .punctuation .colon :: .name "a" :: rest) := by
      simp [fallbackLexemes]
    rw [hlexemes]
    refine ⟨_, ?_, .full dgroup (.noOperator not_startsWithOperator_punctuation) dchoice⟩
    omega

theorem read_fallbackText (known : String → Bool) {k : Nat} (hk : k + 2 ≤ maxNesting) :
    ∃ text, Token.ofText (fallbackText k) = .ok text ∧ text.tokens.length = 5 * k + 1 ∧
      ofText known (fallbackText k) = .ok (fallbacks k) := by
  obtain ⟨n, hn, d⟩ := derives_fallbacks known k (stops_nil 0)
  have hlexed := legible_fallbackText k (r := []) rfl .nil
  rw [List.append_nil] at d
  rw [List.append_nil, List.append_nil] at hlexed
  obtain ⟨text, hscan, htext⟩ := hlexed.scan_eq 0
  refine ⟨text, hscan, ?_, (ofText_of_derives hscan (htext ▸ d)).1 (by omega)⟩
  rw [← length_fallbackLexemes k, ← htext, List.length_map]

/-- What is read has less than two nodes for each lexeme, doubled for each short choice;
and a text that is short enough to be kept may have a tree that doubles again and again. -/
theorem nodes_ofText (known : String → Bool) :
    (∀ (source : String) (e : Expr), ofText known source = .ok e →
      ∃ text, Token.ofText source = .ok text ∧
        e.nodes < 2 ^ shortChoices (lexemesOf text.tokens) * (2 * text.tokens.length)) ∧
    ∀ k : Nat, k ≤ 254 →
      ∃ source text e, source.utf8ByteSize ≤ Cache.defaultMaxLength ∧
        Token.ofText source = .ok text ∧ text.tokens.length = 5 * k + 1 ∧
        ofText known source = .ok e ∧ e.nodes + 2 = 3 * 2 ^ k := by
  constructor
  · intro source e h
    obtain ⟨text, need, htext, d, -⟩ := derives_of_ofText h
    obtain ⟨t, short, ht, hshort, hnodes⟩ := d.pays
    have hlength : (lexemesOf text.tokens).length = text.tokens.length := List.length_map ..
    simp only [List.length_nil, shortChoices, Phrase.paid] at ht hshort hnodes
    refine ⟨text, htext, ?_⟩
    calc
      e.nodes + 1 ≤ 2 ^ short * (0 + 2 * t) := hnodes
      _ ≤ 2 ^ shortChoices (lexemesOf text.tokens) * (2 * text.tokens.length) :=
        Nat.mul_le_mul (Nat.pow_le_pow_right (by decide) (by omega)) (by omega)
  · intro k hk
    have hroom : maxNesting = 256 := rfl
    obtain ⟨text, htext, hlength, hread⟩ :=
      read_fallbackText known (show k + 2 ≤ maxNesting by omega)
    refine ⟨fallbackText k, text, fallbacks k, ?_, htext, hlength, hread, nodes_fallbacks k⟩
    rw [utf8ByteSize_fallbackText, Cache.defaultMaxLength]
    omega

theorem nodes_ofText_echoSum :
    ∃ text, Token.ofText "echo(1) + 1" = .ok text ∧
      echoSum.nodes < 2 ^ shortChoices (lexemesOf text.tokens) * (2 * text.tokens.length) :=
  (nodes_ofText (Function.isKnown [echo])).1 "echo(1) + 1" echoSum ofText_echoSum

/-- Four short choices inside each other have more than two nodes for each lexeme. -/
theorem nodes_not_linear :
    ∃ text e, Token.ofText "((((a) ?: a) ?: a) ?: a) ?: a" = .ok text ∧
      ofText (Function.isKnown []) "((((a) ?: a) ?: a) ?: a) ?: a" = .ok e ∧
      2 * (text.tokens.length + 1) < e.nodes := by
  obtain ⟨text, htext, hlength, hread⟩ :=
    read_fallbackText (Function.isKnown []) (k := 4) (by decide)
  have hnodes := nodes_fallbacks 4
  refine ⟨text, fallbacks 4, htext, hread, ?_⟩
  omega

end Criteria.Expr
