import Mathlib.Data.List.Forall2
import Criteria.Proofs.Expr.Printing
import Criteria.Proofs.Value.Arithmetic

/-!
# Numerals in texts

The numerals of a text that is read stand in its tree in their order, as constants or as keys of
entries. As a constant a numeral is lost to null in one case only: its value is so large that it is
rounded to infinity.
-/

namespace Criteria

/-! ## Numbers as values -/

namespace Numeric

theorem toValue_int (n : Int) (h : Fits n) :
    (int n h).toValue = .number (.int n h.1 h.lt_two_pow) :=
  Value.ofInt_of_fits h

/-- What has no place among values is a floating number that is not finite. -/
theorem toValue_eq_null {n : Numeric} :
    n.toValue = .null ↔ ∃ x, n = .float x ∧ x.isFinite = false := by
  cases n with
  | int n h =>
    rw [toValue_int]
    simp
  | float x =>
    by_cases hx : x.isFinite = true <;> simp [toValue, Value.ofFloat, hx]

end Numeric

namespace Numeral

/-- The decimal number that a numeral says. -/
def decimal (u : Numeral) : Decimal :=
  .ofParts u.negative u.whole (u.fraction.getD []) (u.exponent.getD 0)

theorem isFinite_toBinary64 (u : Numeral) :
    u.toBinary64.isFinite = true ↔ u.decimal.num < Binary64.overflow * u.decimal.den := by
  rw [toBinary64, Decimal.toBinary64_eq_ofRatio]
  exact Binary64.isFinite_ofRatio _ _ (Decimal.den_pos _)

theorem lt_overflow_of_fits {u : Numeral} (hf : u.fraction = none) (he : u.exponent = none)
    (h : Fits u.wholeValue) : u.decimal.num < Binary64.overflow * u.decimal.den := by
  have hnum : u.decimal.num = u.wholeValue.natAbs := by
    simp only [decimal, Decimal.ofParts, Decimal.num, hf, he, wholeValue]
    split <;> simp
  have hden : u.decimal.den = 1 := by
    simp [decimal, Decimal.ofParts, Decimal.den, hf, he]
  have hlt : 2 ^ (63 : Nat) < Binary64.overflow := by decide +kernel
  rw [hnum, hden, Nat.mul_one]
  exact Nat.lt_of_le_of_lt h.natAbs_le hlt

/-- A numeral stands for a number, unless its value is rounded to infinity. -/
theorem toValue_toNumeric_eq_null (u : Numeral) :
    u.toNumeric.toValue = .null ↔ Binary64.overflow * u.decimal.den ≤ u.decimal.num := by
  have hfloat : (Numeric.float u.toBinary64).toValue = .null ↔
      Binary64.overflow * u.decimal.den ≤ u.decimal.num := by
    rw [Numeric.toValue_eq_null, ← Nat.not_lt, ← isFinite_toBinary64]
    simp
  unfold toNumeric
  split
  · next hwhole =>
    obtain ⟨hf, he⟩ := Bool.and_eq_true_iff.mp hwhole
    by_cases hfits : Fits u.wholeValue
    · have hlt := lt_overflow_of_fits (Option.isNone_iff_eq_none.mp hf)
        (Option.isNone_iff_eq_none.mp he) hfits
      rw [Numeric.ofInt, dif_pos hfits, Numeric.toValue_int]
      exact iff_of_false (by simp) (Nat.not_le.mpr hlt)
    · rw [Numeric.ofInt, dif_neg hfits]
      exact hfloat
  · exact hfloat

end Numeral

/-! ## The numerals of a text -/

/-- The numeral `u` stands somewhere in the text `cs`. -/
def NumeralIn (cs : List Char) (u : Numeral) : Prop :=
  ∃ rest, rest <:+ cs ∧ u = (Lexeme.readNumeral rest).1

theorem NumeralIn.mono {cs cs' : List Char} (h : cs' <:+ cs) {u : Numeral}
    (hu : NumeralIn cs' u) : NumeralIn cs u := by
  obtain ⟨rest, hrest, rfl⟩ := hu
  exact ⟨rest, hrest.trans h, rfl⟩

theorem numeral_of_read {c : Char} {cs : List Char} {m : Numeric} {n : Nat}
    (h : Lexeme.read c cs = .ok (.number m, n)) :
    m = (Lexeme.readNumeral (c :: cs)).1.toNumeric := by
  unfold Lexeme.read at h
  split at h
  · split at h <;> cases h
  split at h
  · cases h
    rfl
  split at h
  · cases h
  split at h
  · cases h
  split at h
  · cases h
  split at h <;> cases h

/-- Every number among the lexemes of a text is a numeral of it. -/
theorem Lexed.exists_numeral {cs : List Char} {ls : List Lexeme} (h : Lexed cs ls) {n : Numeric}
    (hn : .number n ∈ ls) : ∃ u, NumeralIn cs u ∧ n = u.toNumeric := by
  induction h with
  | nil => cases hn
  | blank _ _ ih =>
    obtain ⟨u, hu, rfl⟩ := ih hn
    exact ⟨u, hu.mono (List.suffix_cons ..), rfl⟩
  | @lexeme c cs l k ls _ hread _ ih =>
    rcases List.mem_cons.mp hn with rfl | hn
    · exact ⟨_, ⟨_, List.suffix_refl _, rfl⟩, numeral_of_read hread⟩
    · obtain ⟨u, hu, rfl⟩ := ih hn
      exact ⟨u, hu.mono ((List.drop_suffix k cs).trans (List.suffix_cons ..)), rfl⟩

namespace Expr

/-! ## Constants and keys of a tree -/

/-- What a tree has apart from names and operators. -/
inductive Datum where
  | const (v : Value)
  | key (k : String)

mutual

/-- The constants and the keys of a tree from left to right. -/
def data : Expr → List Datum
  | const v => [.const v]
  | name _ => []
  | array items => dataOfAll items
  | hash entries => dataOfEntries entries
  | unary _ e => data e
  | binary _ l r => data l ++ data r
  | logical _ operands => dataOfAll operands
  | conditional c y n => data c ++ data y ++ data n
  | call _ arguments => dataOfAll arguments
  | access target key _ => data target ++ data key

def dataOfAll : List Expr → List Datum
  | [] => []
  | e :: es => data e ++ dataOfAll es

def dataOfEntries : List (String × Expr) → List Datum
  | [] => []
  | (k, e) :: es => [.key k] ++ data e ++ dataOfEntries es

end

theorem dataOfAll_append (xs ys : List Expr) :
    dataOfAll (xs ++ ys) = dataOfAll xs ++ dataOfAll ys := by
  induction xs with
  | nil => rfl
  | cons x xs ih => rw [List.cons_append, dataOfAll, dataOfAll, ih, List.append_assoc]

theorem data_join (op : BinaryOp) (l r : Expr) : data (join op l r) = data l ++ data r := by
  have hpair : data (logical op [l, r]) = data l ++ data r := by
    simp only [data, dataOfAll, List.append_nil]
  unfold join
  split
  · unfold chain
    split
    · split
      · simp only [data, dataOfAll, dataOfAll_append, List.append_nil]
      · exact hpair
    · exact hpair
  · rw [data]

/-- The numbers among lexemes. -/
def numbers : List Lexeme → List Numeric
  | [] => []
  | .number n :: ls => n :: numbers ls
  | _ :: ls => numbers ls

theorem mem_numbers {n : Numeric} {ls : List Lexeme} (h : n ∈ numbers ls) : .number n ∈ ls := by
  induction ls with
  | nil => cases h
  | cons l ls ih =>
    cases l with
    | number m =>
      rcases List.mem_cons.mp h with rfl | h
      · exact List.mem_cons_self ..
      · exact List.mem_cons_of_mem _ (ih h)
    | _ => exact List.mem_cons_of_mem _ (ih h)

/-- The number `n` as a constant or as a key. -/
inductive IsNumber (n : Numeric) : Datum → Prop
  | const : IsNumber n (.const n.toValue)
  | key {k : String} : key? (.number n) = some k → IsNumber n (.key k)

/-- The numbers `ns` stand among `ds` in their order. -/
def Stand (ns : List Numeric) (ds : List Datum) : Prop := List.SublistForall₂ IsNumber ns ds

namespace Stand

variable {ns ns' : List Numeric} {ds ds' : List Datum}

theorem mono (hds : List.Sublist ds ds') (h : Stand ns ds) : Stand ns ds' := by
  obtain ⟨found, hfound, hsub⟩ := List.sublistForall₂_iff.mp h
  exact List.sublistForall₂_iff.mpr ⟨found, hfound, hsub.trans hds⟩

theorem append (h : Stand ns ds) (h' : Stand ns' ds') : Stand (ns ++ ns') (ds ++ ds') := by
  obtain ⟨found, hfound, hsub⟩ := List.sublistForall₂_iff.mp h
  obtain ⟨found', hfound', hsub'⟩ := List.sublistForall₂_iff.mp h'
  exact List.sublistForall₂_iff.mpr
    ⟨found ++ found', List.rel_append hfound hfound', hsub.append hsub'⟩

end Stand

/-! ## What becomes of numerals -/

/-- From `ls` to `rest` a tree with the data `old` becomes one with the data `new`: the numbers
that are taken off stand in it behind those that stood there already. -/
def Puts (ls rest : List Lexeme) (old new : List Datum) : Prop :=
  ∃ taken, numbers ls = taken ++ numbers rest ∧
    ∀ before, Stand before old → Stand (before ++ taken) new

namespace Puts

variable {ls ls₁ rest : List Lexeme} {a a' b c : List Datum}

theorem refl (ls : List Lexeme) (a : List Datum) : Puts ls ls a a :=
  ⟨[], rfl, fun before h => by rwa [List.append_nil]⟩

theorem trans (h₁ : Puts ls ls₁ a b) (h₂ : Puts ls₁ rest b c) : Puts ls rest a c := by
  obtain ⟨taken₁, htaken₁, hput₁⟩ := h₁
  obtain ⟨taken₂, htaken₂, hput₂⟩ := h₂
  refine ⟨taken₁ ++ taken₂, by rw [htaken₁, htaken₂, List.append_assoc], fun before h => ?_⟩
  rw [← List.append_assoc]
  exact hput₂ _ (hput₁ _ h)

theorem mono (h : Puts ls rest a b) (ha : List.Sublist a' a) : Puts ls rest a' b := by
  obtain ⟨taken, htaken, hput⟩ := h
  exact ⟨taken, htaken, fun before hbefore => hput before (hbefore.mono ha)⟩

/-- What is read by itself is put behind other data. -/
theorem beside (h : Puts ls rest [] b) (a : List Datum) : Puts ls rest a (a ++ b) := by
  obtain ⟨taken, htaken, hput⟩ := h
  exact ⟨taken, htaken, fun before hbefore => hbefore.append (hput [] .nil)⟩

/-- A lexeme that is no number puts nothing. -/
theorem cons {l : Lexeme} (hl : numbers (l :: ls) = numbers ls) (h : Puts ls rest a b) :
    Puts (l :: ls) rest a b := by
  obtain ⟨taken, htaken, hput⟩ := h
  exact ⟨taken, hl.trans htaken, hput⟩

theorem number {n : Numeric} {d : Datum} (hd : IsNumber n d) (ls : List Lexeme) :
    Puts (.number n :: ls) ls [] [d] := by
  refine ⟨[n], rfl, fun before hbefore => ?_⟩
  cases hbefore
  exact .cons hd .nil

/-- Lexemes without a number may become anything. -/
theorem other {l : Lexeme} (hl : numbers (l :: ls) = numbers ls) (d : Datum) :
    Puts (l :: ls) ls [] [d] :=
  ((refl ls [d]).mono (List.nil_sublist _)).cons hl

theorem constant {l : Lexeme} {v : Value} (h : constant? l = some v) (ls : List Lexeme) :
    Puts (l :: ls) ls [] [.const v] := by
  cases l with
  | number n =>
    cases h
    exact number .const ls
  | _ => exact other rfl _

theorem key {l : Lexeme} {k : String} (h : key? l = some k) (ls : List Lexeme) :
    Puts (l :: .punctuation .colon :: ls) ls [] [.key k] := by
  cases l with
  | number n => exact (number (.key h) (.punctuation .colon :: ls)).trans ((refl ls _).cons rfl)
  | _ => exact (other rfl _).trans ((refl ls _).cons rfl)

end Puts

/-- The data of the tree that a phrase goes on with. -/
def Phrase.data : Phrase → List Datum
  | .accesses e | .operators _ e | .choices e => e.data
  | .expression _ | .primary | .elements .. | .entries _ => []

theorem Derives.puts {known : String → Bool} {phrase : Phrase} {ls rest : List Lexeme} {v : Expr}
    {used need : Nat} (h : Derives known phrase ls v rest used need) :
    Puts ls rest phrase.data v.data := by
  induction h with
  | full _ _ _ ih₁ ih₂ ih₃ => exact (ih₁.trans ih₂).trans ih₃
  | operand _ _ _ ih₁ ih₂ => exact ih₁.trans ih₂
  | unary _ _ _ ih₁ ih₂ => exact (ih₁.trans ih₂).cons rfl
  | group _ _ ih₁ ih₂ => exact (ih₁.trans (ih₂.cons rfl)).cons rfl
  | array _ _ ih₁ ih₂ | hash _ _ ih₁ ih₂ => exact (ih₁.trans ih₂).cons rfl
  | constant hc _ ih => exact (Puts.constant hc _).trans ih
  | call _ _ _ _ ih₁ ih₂ => exact ((ih₁.trans ih₂).cons rfl).cons rfl
  | name _ _ _ ih => exact ih.cons rfl
  | noAccess | noOperator | noChoice => exact .refl _ _
  | property _ _ ih => exact ((ih.mono (List.sublist_append_left ..)).cons rfl).cons rfl
  | index _ _ ih₁ ih₂ => exact ((ih₁.beside _).trans (ih₂.cons rfl)).cons rfl
  | operator _ _ _ _ ih₁ ih₂ =>
    rw [Phrase.data, data_join] at ih₂
    exact ((ih₁.beside _).trans ih₂).cons rfl
  | @shortChoice e _ _ _ _ _ _ _ _ _ ih₁ ih₂ =>
    -- The tree has what stands before the short form twice, and its numbers stand in one of them.
    have hno := (ih₁.beside (e.data ++ e.data)).trans ih₂
    exact ((hno.mono (List.sublist_append_left ..)).cons rfl).cons rfl
  | choice _ _ _ _ ih₁ ih₂ ih₃ =>
    have hno := ((ih₂.beside _).trans ih₃).cons (l := .punctuation .colon) rfl
    exact ((ih₁.beside _).trans hno).cons rfl
  | openChoice _ _ _ _ ih₁ ih₂ =>
    exact ((ih₁.beside _).trans (ih₂.mono (List.sublist_append_left ..))).cons rfl
  | noElements | noEntries => exact (Puts.refl _ []).cons rfl
  | lastComma | lastEntryComma => exact ((Puts.refl _ []).cons rfl).cons rfl
  | firstElement _ _ _ ih₁ ih₂ => exact ih₁.trans (ih₂.beside _)
  | element _ _ _ _ ih₁ ih₂ => exact (ih₁.trans (ih₂.beside _)).cons rfl
  | firstEntry hk _ _ ih₁ ih₂ =>
    exact ((Puts.key hk _).trans (ih₁.beside _)).trans (ih₂.beside _)
  | entry hk _ _ ih₁ ih₂ =>
    exact (((Puts.key hk _).trans (ih₁.beside _)).trans (ih₂.beside _)).cons rfl

/-- All numbers of a text that is read stand in the tree. -/
theorem stand_of_ofText {known : String → Bool} {source : String} {e : Expr} {text : TokenList}
    (htext : Token.ofText source = .ok text) (h : ofText known source = .ok e) :
    Stand (numbers (lexemesOf text.tokens)) e.data := by
  obtain ⟨text', need, htext', d, -⟩ := derives_of_ofText h
  obtain rfl : text = text' := Except.ok.inj (htext.symm.trans htext')
  obtain ⟨taken, htaken, hput⟩ := d.puts
  obtain rfl : numbers (lexemesOf text.tokens) = taken := by rw [htaken, numbers, List.append_nil]
  exact hput [] .nil

/-- A text that is one numeral is the constant that the numeral stands for. -/
theorem ofText_number {known : String → Bool} {source : String} {n : Numeric}
    (h : Lexed source.toList [.number n]) : ofText known source = .ok (.const n.toValue) := by
  have d : Derives known .primary [.number n] (.const n.toValue) [] 0 0 :=
    .constant rfl ((stops_nil 0).noAccess _)
  exact (ofText_of_lexed h (d.expression (stops_nil 0))).1 (by decide)

/-- The lexeme of `1e400`. -/
theorem lexed_large : Lexed "1e400".toList [.number (.float (.infinity false))] := by
  have hread : Lexeme.read '1' ['e', '4', '0', '0'] =
      .ok (.number (.float (.infinity false)), 4) := rfl
  exact .lexeme rfl hread .nil

end Expr

end Criteria
