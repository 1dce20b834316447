import Criteria.Proofs.Decimal.Plain
import Criteria.Proofs.Rule.Evaluation

/-!
# Membership in lists

A list in a rule is written item by item and read again. What a field is compared with are
therefore the values of the texts of the items, and whether these are the items is a matter of
single numerals. Integers from `2 ^ 63` on are read as floating numbers, since the language has
no others of this size. The least integer is written as the negation of a numeral that does not
fit, and in the quoted style an integral floating number may be written like an integer; such
items can be lost, and the general statements do not say what they are read as.
-/

namespace Criteria

/-! ## Items -/

namespace Expr

theorem exists_negate (n : Numeric) : ∃ w, UnaryOp.negate.apply n.toValue = .ok w := by
  obtain ⟨m, hm⟩ : ∃ m, n.toValue.operand? = some m := by
    cases n <;> simp only [Numeric.toValue, Value.ofInt, Value.ofFloat] <;> split <;>
      exact ⟨_, rfl⟩
  cases m <;> simp only [UnaryOp.apply, hm] <;> exact ⟨_, rfl⟩

/-- Numerals have a value, behind a sign too. -/
theorem exists_eval_ofNumeral (cs : List Char) :
    ∃ w, ∀ functions vars, (ofNumeral cs).eval functions vars = .ok w := by
  obtain ⟨w, hw⟩ := exists_negate (Lexeme.readNumeral (Numeral.splitSign cs).2).1.toNumeric
  exact ⟨_, fun _ _ => eval_signed _ hw⟩

theorem exists_eval_item {style : LiteralStyle} {v : Value} (hv : style.takesItem v = true) :
    ∃ w, ∀ functions vars, (style.item v).eval functions vars = .ok w := by
  have hconst : ∃ w, ∀ functions vars, (Expr.const v).eval functions vars = .ok w :=
    ⟨v, fun _ _ => by rw [eval]⟩
  cases style with
  | quoted =>
    cases v with
    | number n => exact exists_eval_ofNumeral _
    | _ => cases hv
  | typed =>
    cases v with
    | number n => exact exists_eval_ofNumeral _
    | _ => exact hconst

end Expr

namespace CompileOptions

variable {o : CompileOptions} (ho : o.escapes = true)

/-- The value of the text that an item of a list is written as. -/
def reread? (o : CompileOptions) (v : Value) : Option Value :=
  (o.item? v).bind fun s => (Predicate.language.evaluate s []).1.toOption

/-- Whether a value is strictly equal to what some item of a list is read as. -/
def finds (o : CompileOptions) (vs : List Value) (c : Value) : Bool :=
  vs.any fun v => (o.reread? v).any c.strictEq

theorem finds_cons (v : Value) (vs : List Value) (c : Value) :
    o.finds (v :: vs) c = ((o.reread? v).any c.strictEq || o.finds vs c) :=
  List.any_cons

include ho

theorem reread?_eq {v w : Value} (hv : o.style.takesItem v = true)
    (hw : ∀ functions vars, (o.style.item v).eval functions vars = .ok w) :
    o.reread? v = some w := by
  obtain ⟨s, ls, hs, hoperand⟩ : ∃ s ls, o.item? v = some s ∧
      Expr.Operand (Function.isKnown Predicate.language.functions) 1 (o.style.item v) s.toList ls :=
    operand_item ho hv
  have hread := (hoperand.item (Nat.zero_le 50)).ofText_eq hoperand.lexed (by decide)
  have hvalue := (RuleGroup.evaluate_of_ofText [] hread).trans (hw _ _)
  rw [reread?, hs, Option.bind_some, hvalue]
  rfl

/-- The values of the items of a list, in it and by themselves. -/
theorem evalAll_reread {vs : List Value} (hvs : ∀ v ∈ vs, o.style.takesItem v = true)
    (functions : List Function) (vars : Record) :
    ∃ ws, Expr.evalAll functions vars (vs.map o.style.item) = .ok ws ∧
      ∀ c : Value, ws.any c.strictEq = o.finds vs c := by
  induction vs with
  | nil => exact ⟨[], rfl, fun _ => rfl⟩
  | cons v vs ih =>
    obtain ⟨hv, hvs⟩ := List.forall_mem_cons.mp hvs
    obtain ⟨w, hw⟩ := Expr.exists_eval_item hv
    obtain ⟨ws, hws, hfinds⟩ := ih hvs
    refine ⟨w :: ws, ?_, fun c => ?_⟩
    · rw [List.map_cons, Expr.evalAll, hw, hws]
      rfl
    · rw [List.any_cons, hfinds, finds_cons, reread?_eq ho hv hw, Option.any_some]

end CompileOptions

/-! ## Comparisons with a list -/

namespace Leaf

/-- The rule that consists of one comparison compiles, and its text is true or false of a
record, as `b` says. -/
def Answers (o : CompileOptions) (vars : Record) (l : Leaf) (b : Bool) : Prop :=
  ∀ c : Connective, ∃ s, (RuleGroup.mk c [.leaf l]).compile o = .ok s ∧
    (Predicate.language.evaluate s vars).1 = .ok (.bool b)

variable {o : CompileOptions} (ho : o.escapes = true)

include ho

theorem answers_of_eval {vars : Record} {l : Leaf} {b : Bool} (h : l.Readable o.style)
    (hvalue : (l.expr o.style).eval Predicate.language.functions vars = .ok (.bool b)) :
    l.Answers o vars b := by
  intro c
  have hnested : (RuleGroup.mk c [.leaf l]).Nested (Leaf.Readable o.style) 63 :=
    .group (List.cons_ne_nil _ _) (List.forall_mem_singleton.mpr (.leaf h))
  obtain ⟨s, hs, hread⟩ := RuleGroup.ofText_compile ho Predicate.isKnown_language hnested
  refine ⟨s, hs, ?_⟩
  rw [RuleGroup.evaluate_of_ofText vars hread]
  exact hvalue

/-- A field is found in a list if its value is strictly equal to what some item is read as. -/
theorem answers_list {f : String} (hf : PlainField f) {vs : List Value}
    (hvs : ∀ v ∈ vs, o.style.takesItem v = true) {vars : Record} {c : Value}
    (hc : vars.lookup f = some c) :
    (Leaf.mk f .member (.array vs)).Answers o vars (o.finds vs c) ∧
      (Leaf.mk f .notMember (.array vs)).Answers o vars (!o.finds vs c) := by
  obtain ⟨ws, hws, hfinds⟩ :=
    CompileOptions.evalAll_reread ho hvs Predicate.language.functions vars
  have hlist : (o.style.list (.array vs)).eval Predicate.language.functions vars =
      .ok (.array ws) := by
    rw [LiteralStyle.list, Expr.eval, hws]
    rfl
  have hread {op : RuleOp} (hop : op ∈ RuleOp.builtIn) (hisList : op.isList = true) :
      (Leaf.mk f op (.array vs)).Readable o.style :=
    ⟨hf, hop, fun _ => ⟨vs, rfl, hvs⟩, fun h => absurd hisList (by simp [h])⟩
  constructor
  · refine answers_of_eval ho (hread (by decide) rfl) ?_
    rw [expr, Expr.eval_compare rfl hlist, hc, ← hfinds]
    rfl
  · refine answers_of_eval ho (hread (by decide) rfl) ?_
    rw [expr, Expr.eval_compare rfl hlist, hc, ← hfinds]
    rfl

end Leaf

/-! ## What items are read as -/

/-- A value, but for an integer from `2 ^ 63` on, which becomes a floating number. -/
def Value.narrowed : Value → Value
  | .number n => n.toNumeric.toValue
  | v => v

namespace Value

theorem narrowed_int {n : Int} (lower : -2 ^ (63 : Nat) ≤ n) (upper : n < 2 ^ (64 : Nat))
    (h : n < 2 ^ (63 : Nat)) :
    (Value.number (.int n lower upper)).narrowed = .number (.int n lower upper) := by
  have hfits : Fits n := ⟨lower, h⟩
  rw [narrowed, Number.toNumeric, Numeric.ofInt, dif_pos hfits, Numeric.toValue,
    ofInt_eq lower upper]

theorem narrowed_large {n : Int} (lower : -2 ^ (63 : Nat) ≤ n) (upper : n < 2 ^ (64 : Nat))
    (h : 2 ^ (63 : Nat) ≤ n) :
    (Value.number (.int n lower upper)).narrowed = .ofFloat (.ofInt n) := by
  have hfits : ¬ Fits n := fun hfits => Int.not_lt.mpr h hfits.2
  rw [narrowed, Number.toNumeric, Numeric.ofInt, dif_neg hfits, Numeric.toValue]

theorem narrowed_float {x : Binary64} (finite : x.isFinite = true) :
    (Value.number (.float x finite)).narrowed = .number (.float x finite) :=
  ofFloat_eq finite

end Value

namespace Expr

variable {functions : List Function} {vars : Record}

/-- The value of the plain numeral of a number that is not mistaken for an integer. -/
theorem eval_scalarText {x : Binary64} (h : x.OutsideIntegers) :
    (ofNumeral x.scalarText).eval functions vars = .ok (.number (.float x h.finite)) := by
  obtain ⟨w, hw, hnum, htext⟩ := h.scalarText_denotes
  rw [htext, ofNumeral_eq _ hw, hnum]
  exact eval_signed_float h.finite

/-- The value of the numeral of an integer whose size does not fit. -/
theorem eval_intText_of_not_fits {n : Int} (h : ¬ Fits n.natAbs)
    (hfinite : (Binary64.ofInt n.natAbs).isFinite = true) :
    (ofNumeral (intText n).toList).eval functions vars =
      .ok (if n < 0 then .ofFloat (Binary64.ofInt n.natAbs).neg
        else .ofFloat (.ofInt n.natAbs)) := by
  rw [intText, String.toList_ofList, ← Written.text_of_whole (Nat.toDigits 10 n.natAbs),
    ofNumeral_eq _ (Written.proper_toDigits _), Written.toNumeric_of_not_fits h, Numeric.toValue,
    eval_signed _ (negate_ofFloat hfinite)]
  simp only [decide_eq_true_eq]

end Expr

namespace LiteralStyle

theorem takesItem_number (style : LiteralStyle) (n : Number) :
    style.takesItem (.number n) = true := by
  cases style <;> rfl

/-- The items whose text denotes them, as far as the language has their number. In the quoted
style integral floating numbers below `2 ^ 63` are left out, and the least integer always is. -/
def Rereads (style : LiteralStyle) : Value → Prop
  | .number (.int n _ _) => n ≠ -2 ^ (63 : Nat)
  | .number (.float x _) => style = typed ∨ x.OutsideIntegers
  | _ => True

variable {functions : List Function} {vars : Record} {style : LiteralStyle}

theorem eval_item_large {n : Int} (lower : -2 ^ (63 : Nat) ≤ n) (upper : n < 2 ^ (64 : Nat))
    (h : 2 ^ (63 : Nat) ≤ n) :
    (style.item (.number (.int n lower upper))).eval functions vars =
      .ok (.ofFloat (.ofInt n)) := by
  cases style with
  | quoted =>
    have hfits : ¬ Fits n := fun hfits => Int.not_lt.mpr h hfits.2
    have hlarge := Binary64.outsideIntegers_ofInt h upper
    rw [item, Number.toNumeric, Numeric.ofInt, dif_neg hfits, Numeric.text, String.toList_ofList,
      ofFloat_eq hlarge.finite]
    exact Expr.eval_scalarText hlarge
  | typed =>
    have hsize : (n.natAbs : Int) = n := by omega
    have hfits : ¬ Fits n.natAbs := fun hfits => Int.not_lt.mpr h (hsize ▸ hfits.2)
    have hfinite : (Binary64.ofInt n.natAbs).isFinite = true := Binary64.isFinite_ofInt (by omega)
    rw [item, typedExpr, Number.source, Expr.eval_intText_of_not_fits hfits hfinite,
      if_neg (by omega), hsize]

/-- The integers whose size does not fit, the least one among them, are read as floating
numbers. -/
theorem eval_item_unfit {n : Int} (lower : -2 ^ (63 : Nat) ≤ n) (upper : n < 2 ^ (64 : Nat))
    (h : 2 ^ (63 : Nat) ≤ n.natAbs) :
    (style.item (.number (.int n lower upper))).eval functions vars =
      .ok (.ofFloat (.ofInt n)) := by
  by_cases hlarge : 2 ^ (63 : Nat) ≤ n
  · exact eval_item_large lower upper hlarge
  · have hfits : Fits n := ⟨lower, Int.not_le.mp hlarge⟩
    have hnegative : n < 0 := by omega
    have hsize : ¬ Fits n.natAbs := fun hsize => Int.not_lt.mpr (by omega) hsize.2
    have hfinite : (Binary64.ofInt n.natAbs).isFinite = true := Binary64.isFinite_ofInt (by omega)
    have htext : style.item (.number (.int n lower upper)) = Expr.ofNumeral (intText n).toList := by
      cases style with
      | quoted => rw [item, Number.toNumeric, Numeric.ofInt, dif_pos hfits, Numeric.text]
      | typed => rfl
    rw [htext, Expr.eval_intText_of_not_fits hsize hfinite, if_pos hnegative,
      Binary64.neg_ofInt_natAbs hnegative]

theorem eval_item_float {x : Binary64} {finite : x.isFinite = true}
    (h : style.Rereads (.number (.float x finite))) :
    (style.item (.number (.float x finite))).eval functions vars =
      .ok (.number (.float x finite)) := by
  cases style with
  | quoted =>
    have houtside : x.OutsideIntegers := by simpa [Rereads] using h
    rw [item, Number.toNumeric, Numeric.text, String.toList_ofList]
    exact Expr.eval_scalarText houtside
  | typed => exact Expr.eval_typedExpr (v := .number (.float x finite)) rfl

theorem eval_item_narrowed {v : Value} (hv : style.takesItem v = true) (h : style.Rereads v) :
    (style.item v).eval functions vars = .ok v.narrowed := by
  cases v with
  | number n =>
    cases n with
    | int n lower upper =>
      by_cases hlarge : 2 ^ (63 : Nat) ≤ n
      · rw [Value.narrowed_large lower upper hlarge]
        exact eval_item_large lower upper hlarge
      · have hleast : n ≠ -2 ^ (63 : Nat) := h
        have hsmall : n.natAbs < 2 ^ (63 : Nat) := by omega
        rw [Value.narrowed_int lower upper (Int.not_le.mp hlarge)]
        exact Expr.eval_item (by cases style <;> exact decide_eq_true hsmall)
    | float x finite =>
      rw [Value.narrowed_float finite]
      exact eval_item_float h
  | _ =>
    cases style with
    | quoted => cases hv
    | typed => exact Expr.eval_item hv

end LiteralStyle

/-- Items are read as some value, which is known of those whose text denotes them. -/
theorem CompileOptions.exists_reread? {o : CompileOptions} (ho : o.escapes = true) {v : Value}
    (hv : o.style.takesItem v = true) :
    ∃ w, o.reread? v = some w ∧ (o.style.Rereads v → w = v.narrowed) := by
  obtain ⟨w, hw⟩ := Expr.exists_eval_item hv
  refine ⟨w, reread?_eq ho hv hw, fun h => ?_⟩
  have hnarrowed : (o.style.item v).eval [] [] = .ok v.narrowed :=
    LiteralStyle.eval_item_narrowed hv h
  exact Except.ok.inj ((hw [] []).symm.trans hnarrowed)

/-- A value is found if it is strictly equal to an item whose text denotes it. -/
theorem CompileOptions.finds_of_mem {o : CompileOptions} (ho : o.escapes = true) {vs : List Value}
    {v c : Value} (hmem : v ∈ vs) (hv : o.style.takesItem v = true) (h : o.style.Rereads v)
    (hc : c.strictEq v.narrowed = true) : o.finds vs c = true := by
  obtain ⟨w, hw, hnarrowed⟩ := exists_reread? ho hv
  refine List.any_eq_true.mpr ⟨v, hmem, ?_⟩
  rw [hw, hnarrowed h, Option.any_some, hc]

/-! ## Numbers that are lost -/

namespace Value

theorem strictEq_int_ofFloat {n : Int} (lower : -2 ^ (63 : Nat) ≤ n) (upper : n < 2 ^ (64 : Nat))
    (x : Binary64) :
    (Value.number (.int n lower upper)).strictEq (.ofFloat x) = false := by
  rw [ofFloat]
  split <;> rfl

theorem strictEq_float_ofInt {x : Binary64} (finite : x.isFinite = true) (n : Int) :
    (Value.number (.float x finite)).strictEq (.ofInt n) = false := by
  rw [ofInt]
  split <;> rfl

/-- A number is strictly equal to itself. -/
theorem strictEq_number (n : Number) : (Value.number n).strictEq (.number n) = true := by
  cases n with
  | int n lower upper => simp [strictEq, numberEq]
  | float x finite =>
    have hnan := Binary64.isNaN_of_isFinite finite
    simp [strictEq, numberEq, Binary64.compare?, hnan]

end Value

namespace Number

/-- A number is not found in the list of itself alone, though it is strictly equal to itself. -/
def Lost (o : CompileOptions) (f : String) (n : Number) : Prop :=
  (Value.number n).strictEq (.number n) = true ∧
    (Leaf.mk f .member (.array [.number n])).Answers o [(f, .number n)] false

/-- The least integer that the language takes for a floating number. -/
def beyond : Number := .int (2 ^ (63 : Nat)) (by decide) (by decide)

def least : Number := .int (-2 ^ (63 : Nat)) (by decide) (by decide)

def one : Number := .float (.ofInt 1) (by decide +kernel)

def half : Number := .float (.ofRatio false 1 2) (by decide +kernel)

end Number

namespace Leaf

theorem plainField_n : PlainField "n" :=
  plainField_of_isReference ⟨isName_of_check rfl rfl rfl rfl rfl, rfl⟩

section

variable {o : CompileOptions} (ho : o.escapes = true) {f : String} (hf : PlainField f)

include ho hf

theorem lost_of_eval_item {n : Number} {w : Value}
    (hw : ∀ functions vars, (o.style.item (.number n)).eval functions vars = .ok w)
    (hne : (Value.number n).strictEq w = false) : n.Lost o f := by
  have htakes := o.style.takesItem_number n
  have hc : List.lookup f [(f, Value.number n)] = some (.number n) := by simp
  have hanswers := (answers_list ho hf (List.forall_mem_singleton.mpr htakes) hc).1
  rw [CompileOptions.finds_cons, CompileOptions.reread?_eq ho htakes hw, Option.any_some, hne,
    CompileOptions.finds, List.any_nil, Bool.or_false] at hanswers
  exact ⟨Value.strictEq_number n, hanswers⟩

/-- An integer that is read as a floating number is lost. -/
theorem lost_int {n : Int} (lower : -2 ^ (63 : Nat) ≤ n) (upper : n < 2 ^ (64 : Nat))
    (h : 2 ^ (63 : Nat) ≤ n.natAbs) :
    (Number.int n lower upper).Lost o f := by
  exact lost_of_eval_item ho hf (fun _ _ => LiteralStyle.eval_item_unfit lower upper h)
    (Value.strictEq_int_ofFloat lower upper _)

/-- In the quoted style an integral floating number below `10 ^ 15` is lost as an integer. -/
theorem lost_integral {x : Binary64} (finite : x.isFinite = true) (hquoted : o.style = .quoted)
    (h : (x.isIntegral && Binary64.units x.rank < 10 ^ (15 : Nat) * Binary64.unitsPerOne) = true) :
    (Number.float x finite).Lost o f := by
  obtain ⟨n, hn⟩ : ∃ n, n = x.truncate (-(10 ^ (15 : Nat))) (10 ^ (15 : Nat)) := ⟨_, rfl⟩
  have hsmall : n.natAbs < 2 ^ (63 : Nat) := by
    have hbounds : -(10 ^ (15 : Nat)) ≤ n ∧ n ≤ 10 ^ (15 : Nat) :=
      hn ▸ x.truncate_mem (by decide) (by decide)
    omega
  have hitem : o.style.item (.number (.float x finite)) = Expr.ofNumeral (intText n).toList := by
    rw [hquoted, LiteralStyle.item, Number.toNumeric, Numeric.text, Binary64.scalarText, if_pos h,
      ← hn]
    rfl
  refine lost_of_eval_item ho hf (fun _ _ => ?_) (Value.strictEq_float_ofInt finite n)
  rw [hitem]
  exact Expr.eval_intText hsmall

end

open Number

/-! ## Numbers in the quoted style -/

/-- In the quoted style a field is found in a list of numbers if its value is strictly equal to
what one of them is read as, and the comparison never fails. A number that is read as itself is
found in every list that contains it. -/
theorem answers_numbers {f : String} (hf : PlainField f) (xs : List Number) (c : Value) :
    (Leaf.mk f .member (.array (xs.map .number))).Answers .standard [(f, c)]
        (CompileOptions.standard.finds (xs.map .number) c) ∧
      (Leaf.mk f .notMember (.array (xs.map .number))).Answers .standard [(f, c)]
        (!CompileOptions.standard.finds (xs.map .number) c) ∧
      (∀ x : Number, ∃ w, CompileOptions.standard.reread? (.number x) = some w ∧
        (LiteralStyle.quoted.Rereads (.number x) → w = (Value.number x).narrowed)) ∧
      ∀ x ∈ xs, LiteralStyle.quoted.Rereads (.number x) →
        (Value.number x).narrowed = .number x →
          CompileOptions.standard.finds (xs.map .number) (.number x) = true := by
  have ho : CompileOptions.standard.escapes = true := rfl
  have hvs : ∀ v ∈ xs.map Value.number, CompileOptions.standard.style.takesItem v = true := by
    intro v hv
    obtain ⟨x, -, rfl⟩ := List.mem_map.mp hv
    exact LiteralStyle.takesItem_number _ x
  have hc : List.lookup f [(f, c)] = some c := by simp
  obtain ⟨hmember, hnot⟩ := answers_list ho hf hvs hc
  refine ⟨hmember, hnot, fun _ => CompileOptions.exists_reread? ho rfl, ?_⟩
  intro x hx hrereads hself
  refine CompileOptions.finds_of_mem ho (List.mem_map_of_mem hx) rfl hrereads ?_
  rw [hself]
  exact Value.strictEq_number x

theorem answers_numbers_half :
    (Leaf.mk "n" .member (.array [.number beyond, .number half])).Answers .standard
        [("n", .number half)] true ∧
      (Leaf.mk "n" .notMember (.array [.number beyond, .number half])).Answers .standard
        [("n", .number half)] false := by
  obtain ⟨hmember, hnot, -, hself⟩ := answers_numbers plainField_n [beyond, half] (.number half)
  have hrereads : LiteralStyle.quoted.Rereads (.number half) :=
    .inr ⟨by decide +kernel, .inl (by decide +kernel)⟩
  have hfinds := hself half (by simp) hrereads (Value.narrowed_float _)
  rw [hfinds] at hmember hnot
  exact ⟨hmember, hnot⟩

/-- A large integer, the least one and the floating number one are lost. -/
theorem answers_numbers_lost :
    beyond.Lost .standard "n" ∧ least.Lost .standard "n" ∧ one.Lost .standard "n" := by
  have ho : CompileOptions.standard.escapes = true := rfl
  refine ⟨?_, ?_, ?_⟩
  · exact lost_int ho plainField_n _ _ (by decide)
  · exact lost_int ho plainField_n _ _ (by decide)
  · exact lost_integral ho plainField_n _ rfl (by decide +kernel)

/-! ## Scalars in the typed style -/

/-- The same of lists of any scalars in the typed style. -/
theorem answers_scalars {f : String} (hf : PlainField f) {vs : List Value}
    (hvs : ∀ v ∈ vs, v.isScalar = true) (c : Value) :
    (Leaf.mk f .member (.array vs)).Answers ⟨.typed, true⟩ [(f, c)]
        (CompileOptions.finds ⟨.typed, true⟩ vs c) ∧
      (Leaf.mk f .notMember (.array vs)).Answers ⟨.typed, true⟩ [(f, c)]
        (!CompileOptions.finds ⟨.typed, true⟩ vs c) ∧
      ∀ v : Value, v.isScalar = true → ∃ w, CompileOptions.reread? ⟨.typed, true⟩ v = some w ∧
        (LiteralStyle.typed.Rereads v → w = v.narrowed) := by
  have ho : CompileOptions.escapes ⟨.typed, true⟩ = true := rfl
  have hc : List.lookup f [(f, c)] = some c := by simp
  obtain ⟨hmember, hnot⟩ := answers_list ho hf hvs hc
  exact ⟨hmember, hnot, fun _ hv => CompileOptions.exists_reread? ho hv⟩

/-- A quote among values of other kinds. -/
theorem answers_scalars_quote :
    (Leaf.mk "n" .member (.array [.null, .string "\"", .number beyond])).Answers ⟨.typed, true⟩
        [("n", .string "\"")] true ∧
      (Leaf.mk "n" .notMember (.array [.null, .string "\"", .number beyond])).Answers ⟨.typed, true⟩
        [("n", .string "\"")] false := by
  have hvs : ∀ v ∈ [Value.null, .string "\"", .number beyond], v.isScalar = true := by decide
  obtain ⟨hmember, hnot, hread⟩ := answers_scalars plainField_n hvs (.string "\"")
  obtain ⟨w, hw, hquote⟩ := hread (.string "\"") rfl
  obtain rfl : w = .string "\"" := hquote trivial
  have hfinds : CompileOptions.finds ⟨.typed, true⟩ [.null, .string "\"", .number beyond]
      (.string "\"") = true := by
    simp [CompileOptions.finds, hw, Value.strictEq]
  rw [hfinds] at hmember hnot
  exact ⟨hmember, hnot⟩

/-- A large integer and the least one are lost in this style too. -/
theorem answers_scalars_lost :
    beyond.Lost ⟨.typed, true⟩ "n" ∧ least.Lost ⟨.typed, true⟩ "n" := by
  have ho : CompileOptions.escapes ⟨.typed, true⟩ = true := rfl
  constructor
  · exact lost_int ho plainField_n _ _ (by decide)
  · exact lost_int ho plainField_n _ _ (by decide)

end Leaf

end Criteria
