import Criteria.Proofs.Expr.Lexing
import Criteria.Proofs.Expr.Soundness

/-!
# The trees that are read

Not every tree comes from a text. In those that do, constants are scalars without a sign,
names and members are names, an operator that makes chains stands nowhere else, and no
chain starts with a chain of its own operator.
-/

namespace Criteria.Expr

/-- The constants of expressions. -/
inductive Literal : Value → Prop
  | null : Literal .null
  | bool (b : Bool) : Literal (.bool b)
  | string (s : String) : Literal (.string s)
  | int {n : Int} (nonneg : 0 ≤ n) (lower : -2 ^ (63 : Nat) ≤ n) (upper : n < 2 ^ (64 : Nat))
      (fits : n < 2 ^ (63 : Nat)) : Literal (.number (.int n lower upper))
  | float {x : Binary64} (finite : x.isFinite = true) (nonneg : x.negative = false) :
      Literal (.number (.float x finite))

/-- A name that stands for a variable or a function. -/
structure IsReference (s : String) : Prop where
  isName : IsName s
  notConstant : constantWord? s = none

/-- The trees that texts have, where `known` are the functions. -/
inductive Regular (known : String → Bool) : Expr → Prop
  | const {v : Value} : Literal v → Regular known (.const v)
  | name {s : String} : IsReference s → Regular known (.name s)
  | array {es : List Expr} : (∀ e ∈ es, Regular known e) → Regular known (.array es)
  | hash {es : List (String × Expr)} : (∀ p ∈ es, Regular known p.2) → Regular known (.hash es)
  | unary {op : UnaryOp} {e : Expr} : Regular known e → Regular known (.unary op e)
  | binary {op : BinaryOp} {l r : Expr} : op.isLogical = false → Regular known l →
      Regular known r → Regular known (.binary op l r)
  | logical {op : BinaryOp} {first second : Expr} {es : List Expr} : op.isLogical = true →
      (∀ operands, first ≠ .logical op operands) → Regular known first → Regular known second →
      (∀ e ∈ es, Regular known e) → Regular known (.logical op (first :: second :: es))
  | conditional {c yes no : Expr} : Regular known c → Regular known yes → Regular known no →
      Regular known (.conditional c yes no)
  | call {s : String} {es : List Expr} : IsReference s → known s = true →
      (∀ e ∈ es, Regular known e) → Regular known (.call s es)
  | property {e : Expr} {member : String} : Regular known e → IsName member →
      Regular known (.access e (.const (.string member)) .property)
  | index {e key : Expr} : Regular known e → Regular known key →
      Regular known (.access e key .index)

theorem literal_toValue {n : Numeric} (h : (Lexeme.number n).Valid) : Literal n.toValue := by
  cases n with
  | int n fits =>
    obtain ⟨hlow, hhigh⟩ := fits
    have hfits : -2 ^ (63 : Nat) ≤ n ∧ n < 2 ^ (64 : Nat) := ⟨hlow, by omega⟩
    simp only [Numeric.toValue, Value.ofInt, dif_pos hfits]
    exact .int h _ _ hhigh
  | float x =>
    simp only [Numeric.toValue, Value.ofFloat]
    split
    · next hx => exact .float hx h
    · exact .null

theorem literal_of_constant? {l : Lexeme} {c : Value} (hl : l.Valid) (h : constant? l = some c) :
    Literal c := by
  cases l with
  | number n =>
    cases h
    exact literal_toValue hl
  | string s =>
    cases h
    exact .string s
  | name s =>
    simp only [constant?, constantWord?] at h
    split at h <;> cases h <;> constructor
  | operator s => cases h
  | punctuation p => cases h

variable {known : String → Bool}

theorem regular_join {op : BinaryOp} {l r : Expr} (hl : Regular known l) (hr : Regular known r) :
    Regular known (join op l r) := by
  unfold join
  split
  · next hop =>
    unfold chain
    split
    · next op' operands =>
      split
      · next heq =>
        subst heq
        cases hl with
        | logical _ hfirst h₁ h₂ hes =>
          refine .logical hop hfirst h₁ h₂ ?_
          intro e he
          rcases List.mem_append.mp he with he | he
          · exact hes e he
          · obtain rfl := List.mem_singleton.mp he
            exact hr
      · next hne =>
        refine .logical hop ?_ hl hr (by simp)
        rintro operands' heq
        cases heq
        exact hne rfl
    · next hnot => exact .logical hop (hnot op) hl hr (by simp)
  · next hop => exact .binary (by simpa using hop) hl hr

theorem Regular.array_cons {e : Expr} {es : List Expr} (he : Regular known e)
    (h : Regular known (.array es)) : Regular known (.array (e :: es)) := by
  cases h with
  | array hes => exact .array (List.forall_mem_cons.mpr ⟨he, hes⟩)

theorem Regular.hash_cons {key : String} {e : Expr} {es : List (String × Expr)}
    (he : Regular known e) (h : Regular known (.hash es)) :
    Regular known (.hash ((key, e) :: es)) := by
  cases h with
  | hash hes => exact .hash (List.forall_mem_cons.mpr ⟨he, hes⟩)

/-- The expression that a phrase goes on with is regular. -/
def Phrase.Regular (known : String → Bool) : Phrase → Prop
  | .accesses e | .operators _ e | .choices e => Expr.Regular known e
  | _ => True

/-- All the lexemes can stand in a text. -/
def AllValid (ls : List Lexeme) : Prop := ∀ l ∈ ls, l.Valid

@[simp] theorem allValid_cons {l : Lexeme} {ls : List Lexeme} :
    AllValid (l :: ls) ↔ l.Valid ∧ AllValid ls :=
  List.forall_mem_cons

/-- Phrases of lexemes of a text are regular, and what is left has such lexemes again. -/
theorem Derives.regular {phrase : Phrase} {ls rest : List Lexeme} {v : Expr} {used need : Nat}
    (h : Derives known phrase ls v rest used need) (hls : AllValid ls)
    (hphrase : phrase.Regular known) : Regular known v ∧ AllValid rest := by
  induction h with
  | full _ _ _ ih₁ ih₂ ih₃ =>
    obtain ⟨h₁, hls₁⟩ := ih₁ hls trivial
    obtain ⟨h₂, hls₂⟩ := ih₂ hls₁ h₁
    exact ih₃ hls₂ h₂
  | operand _ _ _ ih₁ ih₂ =>
    obtain ⟨h₁, hls₁⟩ := ih₁ hls trivial
    exact ih₂ hls₁ h₁
  | unary _ _ _ ih₁ ih₂ =>
    obtain ⟨h₁, hls₁⟩ := ih₁ (allValid_cons.mp hls).2 trivial
    exact ih₂ hls₁ (.unary h₁)
  | group _ _ ih₁ ih₂ =>
    obtain ⟨h₁, hls₁⟩ := ih₁ (allValid_cons.mp hls).2 trivial
    exact ih₂ (allValid_cons.mp hls₁).2 h₁
  | array _ _ ih₁ ih₂ | hash _ _ ih₁ ih₂ =>
    obtain ⟨h₁, hls₁⟩ := ih₁ (allValid_cons.mp hls).2 trivial
    exact ih₂ hls₁ h₁
  | constant hc _ ih =>
    obtain ⟨hl, hls⟩ := allValid_cons.mp hls
    exact ih hls (.const (literal_of_constant? hl hc))
  | call hc hk _ _ ih₁ ih₂ =>
    simp only [allValid_cons] at hls
    obtain ⟨h₁, hls₁⟩ := ih₁ hls.2.2 trivial
    cases h₁ with
    | array hes => exact ih₂ hls₁ (.call ⟨hls.1, hc⟩ hk hes)
  | name hc _ _ ih =>
    obtain ⟨hl, hls⟩ := allValid_cons.mp hls
    exact ih hls (.name ⟨hl, hc⟩)
  | noAccess | noOperator | noChoice => exact ⟨hphrase, hls⟩
  | property _ _ ih =>
    simp only [allValid_cons] at hls
    exact ih hls.2.2 (.property hphrase hls.2.1)
  | index _ _ ih₁ ih₂ =>
    obtain ⟨h₁, hls₁⟩ := ih₁ (allValid_cons.mp hls).2 trivial
    exact ih₂ (allValid_cons.mp hls₁).2 (.index hphrase h₁)
  | operator _ _ _ _ ih₁ ih₂ =>
    obtain ⟨h₁, hls₁⟩ := ih₁ (allValid_cons.mp hls).2 trivial
    exact ih₂ hls₁ (regular_join hphrase h₁)
  | shortChoice _ _ ih₁ ih₂ =>
    simp only [allValid_cons] at hls
    obtain ⟨h₁, hls₁⟩ := ih₁ hls.2.2 trivial
    exact ih₂ hls₁ (.conditional hphrase hphrase h₁)
  | choice _ _ _ _ ih₁ ih₂ ih₃ =>
    obtain ⟨h₁, hls₁⟩ := ih₁ (allValid_cons.mp hls).2 trivial
    obtain ⟨h₂, hls₂⟩ := ih₂ (allValid_cons.mp hls₁).2 trivial
    exact ih₃ hls₂ (.conditional hphrase h₁ h₂)
  | openChoice _ _ _ _ ih₁ ih₂ =>
    obtain ⟨h₁, hls₁⟩ := ih₁ (allValid_cons.mp hls).2 trivial
    exact ih₂ hls₁ (.conditional hphrase h₁ (.const .null))
  | noElements => exact ⟨.array (by simp), (allValid_cons.mp hls).2⟩
  | firstElement _ _ _ ih₁ ih₂ =>
    obtain ⟨h₁, hls₁⟩ := ih₁ hls trivial
    obtain ⟨h₂, hls₂⟩ := ih₂ hls₁ trivial
    exact ⟨.array_cons h₁ h₂, hls₂⟩
  | lastComma =>
    simp only [allValid_cons] at hls
    exact ⟨.array (by simp), hls.2.2⟩
  | element _ _ _ _ ih₁ ih₂ =>
    obtain ⟨h₁, hls₁⟩ := ih₁ (allValid_cons.mp hls).2 trivial
    obtain ⟨h₂, hls₂⟩ := ih₂ hls₁ trivial
    exact ⟨.array_cons h₁ h₂, hls₂⟩
  | noEntries => exact ⟨.hash (by simp), (allValid_cons.mp hls).2⟩
  | firstEntry _ _ _ ih₁ ih₂ =>
    simp only [allValid_cons] at hls
    obtain ⟨h₁, hls₁⟩ := ih₁ hls.2.2 trivial
    obtain ⟨h₂, hls₂⟩ := ih₂ hls₁ trivial
    exact ⟨.hash_cons h₁ h₂, hls₂⟩
  | lastEntryComma =>
    simp only [allValid_cons] at hls
    exact ⟨.hash (by simp), hls.2.2⟩
  | entry _ _ _ ih₁ ih₂ =>
    simp only [allValid_cons] at hls
    obtain ⟨h₁, hls₁⟩ := ih₁ hls.2.2.2 trivial
    obtain ⟨h₂, hls₂⟩ := ih₂ hls₁ trivial
    exact ⟨.hash_cons h₁ h₂, hls₂⟩

/-- What is read from a text is regular. -/
theorem regular_of_ofText {source : String} {e : Expr} (h : ofText known source = .ok e) :
    Regular known e := by
  obtain ⟨text, need, ht, d, -⟩ := derives_of_ofText h
  exact (d.regular (Lexed.of_scan ht).valid trivial).1

end Criteria.Expr
