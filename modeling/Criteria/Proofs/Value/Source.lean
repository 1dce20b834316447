import Criteria.Proofs.Rule.Evaluation
import Criteria.Proofs.Value.Keys

/-!
# The source text of values

The source text of a value is an expression with this value, however the value is nested. Each
pair of brackets takes one level of nesting, and the sign of a negative number one more.
-/

namespace Criteria

open Criteria.Expr

/-! ## Records built in order -/

/-- A key behind all others comes last. -/
theorem Record.insert_of_lt {key : String} {value : Value} {r : Record}
    (h : ∀ e ∈ r, e.1 < key) : r.insert key value = r ++ [(key, value)] := by
  induction r with
  | nil => rfl
  | cons e r ih =>
    obtain ⟨hlt, hrest⟩ := List.forall_mem_cons.mp h
    rw [insert, if_neg (String.lt_asymm hlt), if_neg (Std.ne_of_lt hlt).symm, ih hrest]
    rfl

theorem Record.insert_append {key : String} {value : Value} {r rest : Record}
    (h : (r ++ (key, value) :: rest).Pairwise (·.1 < ·.1)) :
    r.insert key value = r ++ [(key, value)] :=
  insert_of_lt fun e he => (List.pairwise_append.mp h).2.2 e he _ List.mem_cons_self

namespace Value

/-! ## Values with a source text -/

/-- The values in at most `n` levels of brackets whose integers have a magnitude below `2 ^ 63`. -/
inductive Denotable : Nat → Value → Prop
  | null {n : Nat} : Denotable n .null
  | bool {n : Nat} (b : Bool) : Denotable n (.bool b)
  | int {n : Nat} {i : Int} (lower : -2 ^ (63 : Nat) ≤ i) (upper : i < 2 ^ (64 : Nat)) :
      i.natAbs < 2 ^ (63 : Nat) → Denotable n (.number (.int i lower upper))
  | float {n : Nat} (x : Binary64) (finite : x.isFinite = true) :
      Denotable n (.number (.float x finite))
  | string {n : Nat} (s : String) : Denotable n (.string s)
  | array {n : Nat} {items : List Value} :
      (∀ v ∈ items, Denotable n v) → Denotable (n + 1) (.array items)
  | object {n : Nat} {entries : Record} :
      (∀ e ∈ entries, Denotable n e.2) → Denotable (n + 1) (.object entries)

variable {known : String → Bool} {k : Nat}

/-- The source text of `v` is read as an operand, in at most `k` levels, and its value is `v`. -/
def Denotes (known : String → Bool) (k : Nat) (v : Value) : Prop :=
  ∃ e ls, Operand known k e v.source.toList ls ∧ ∀ functions vars, e.eval functions vars = .ok v

theorem Denotes.mono {k' : Nat} (hk : k ≤ k') {v : Value} (h : Denotes known k v) :
    Denotes known k' v := by
  obtain ⟨e, ls, hoperand, heval⟩ := h
  exact ⟨e, ls, hoperand.mono hk, heval⟩

theorem denotes_of_const {v : Value} {ls : List Lexeme}
    (h : Operand known 0 (.const v) v.source.toList ls) : Denotes known 0 v :=
  ⟨_, ls, h, fun _ _ => by rw [eval]⟩

theorem denotes_bool (b : Bool) : Denotes known 0 (.bool b) := by
  cases b with
  | true => exact denotes_of_const (operand_word (.inr (.inl rfl)) rfl)
  | false => exact denotes_of_const (operand_word (.inr (.inr rfl)) rfl)

theorem denotes_string (s : String) : Denotes known 0 (.string s) := by
  have htext : (source (.string s)).toList = '"' :: (s.toList.flatMap escape ++ ['"']) := by
    rw [source, quote, String.toList_ofList]
  have hoperand : Operand known 0 (.const (.string s)) _ _ := operand_string escapes_escape s
  rw [← htext] at hoperand
  exact denotes_of_const hoperand

/-- Numbers may need a sign. -/
theorem denotes_number {n : Number} (h : LiteralStyle.typed.keeps (.number n) = true) :
    Denotes known 1 (.number n) := by
  obtain ⟨negative, w, hw, htext⟩ := source_written n
  obtain ⟨ls, hoperand⟩ := operand_numeral known negative hw
  rw [← htext] at hoperand
  exact ⟨_, ls, hoperand, fun _ _ => eval_typedExpr h⟩

/-! ## Arrays and objects -/

theorem exists_items {items : List Value} (h : ∀ v ∈ items, Denotes known k v) :
    ∃ es lss, AllLegible ((sourceItems items).map String.toList) lss ∧
      Items known (fun _ => (· ≤ 1 + k)) 0 es lss ∧
      ∀ functions vars, evalAll functions vars es = .ok items := by
  induction items with
  | nil => exact ⟨[], [], .nil, .nil, fun _ _ => rfl⟩
  | cons v items ih =>
    obtain ⟨⟨e, ls, hoperand, heval⟩, hitems⟩ := List.forall_mem_cons.mp h
    obtain ⟨es, lss, hlegible, hall, hevals⟩ := ih hitems
    refine ⟨e :: es, ls :: lss, .cons hoperand.lexed hlegible,
      .cons (hoperand.item (Nat.zero_le 50)) hall, fun functions vars => ?_⟩
    rw [evalAll, heval, hevals]
    rfl

theorem denotes_array {items : List Value} (h : ∀ v ∈ items, Denotes known k v) :
    Denotes known (1 + k) (.array items) := by
  obtain ⟨es, lss, hlegible, hall, hevals⟩ := exists_items h
  have htext : (source (.array items)).toList =
      '[' :: ([',', ' '].intercalate ((sourceItems items).map String.toList) ++ [']']) := by
    simp [source]
  refine ⟨.array es, _, htext ▸ operand_array hlegible hall, fun functions vars => ?_⟩
  rw [eval, hevals]
  rfl

/-- Entries with increasing keys are put into the record in this order. -/
theorem exists_entries {entries : Record} (h : ∀ e ∈ entries, Denotes known k e.2) :
    ∃ es lss, AllLegible ((sourceEntries entries).map String.toList) lss ∧
      Entries known (fun _ => (· ≤ 1 + k)) es lss ∧
      ∀ functions vars done, (done ++ entries).Pairwise (·.1 < ·.1) →
        evalEntries functions vars done es = .ok (done ++ entries) := by
  induction entries with
  | nil =>
    refine ⟨[], [], .nil, .nil, fun _ _ done _ => ?_⟩
    rw [List.append_nil, evalEntries]
  | cons entry entries ih =>
    obtain ⟨key, v⟩ := entry
    obtain ⟨⟨e, ls, hoperand, heval⟩, hentries⟩ := List.forall_mem_cons.mp h
    obtain ⟨es, lss, hlegible, hall, hevals⟩ := ih hentries
    refine ⟨(key, e) :: es, _, ?_, .cons (hoperand.item (Nat.zero_le 50)) hall,
      fun functions vars done hkeys => ?_⟩
    · simpa [sourceEntries] using AllLegible.cons (hoperand.lexed.entry key) hlegible
    · -- The key is behind those before it, so that its entry is put at the end.
      have hdone : done ++ (key, v) :: entries = done ++ [(key, v)] ++ entries := by simp
      rw [evalEntries, heval, ok_bind, Record.insert_append hkeys, hdone]
      exact hevals _ _ _ (hdone ▸ hkeys)

theorem denotes_object {entries : Record} (hkeys : entries.Pairwise (·.1 < ·.1))
    (h : ∀ e ∈ entries, Denotes known k e.2) : Denotes known (1 + k) (.object entries) := by
  obtain ⟨es, lss, hlegible, hall, hevals⟩ := exists_entries h
  have htext : (source (.object entries)).toList = '\x7b' ::
      ([',', ' '].intercalate ((sourceEntries entries).map String.toList) ++ ['\x7d']) := by
    simp [source]
  refine ⟨.hash es, _, htext ▸ operand_hash hlegible hall, fun functions vars => ?_⟩
  rw [eval, hevals _ _ [] hkeys]
  rfl

/-! ## All values -/

/-- The level beyond those of the brackets is for the sign of a number. -/
theorem Denotable.denotes {n : Nat} {v : Value} (h : Denotable n v) (hv : v.InOrder) :
    Denotes known (1 + n) v := by
  have hsmall {n : Nat} {v : Value} (h : Denotes known 0 v) : Denotes known (1 + n) v :=
    h.mono (Nat.zero_le _)
  have hnumber {n : Nat} {x : Number} (hx : LiteralStyle.typed.keeps (.number x) = true) :
      Denotes known (1 + n) (.number x) :=
    (denotes_number hx).mono (Nat.le_add_right 1 n)
  induction h with
  | null => exact hsmall (denotes_of_const (operand_word (.inl rfl) rfl))
  | bool b => exact hsmall (denotes_bool b)
  | string s => exact hsmall (denotes_string s)
  | int _ _ hi => exact hnumber (decide_eq_true hi)
  | float => exact hnumber rfl
  | @array n items _ ih =>
    cases hv with
    | scalar h => cases h
    | array hitems =>
      have harray := denotes_array fun v hmem => ih v hmem (hitems v hmem)
      rwa [Nat.add_comm n 1]
  | @object n entries _ ih =>
    cases hv with
    | scalar h => cases h
    | object hkeys hvalues =>
      have hobject := denotes_object hkeys fun e hmem => ih e hmem (hvalues e hmem)
      rwa [Nat.add_comm n 1]

/-- A value that is not nested too deeply is the value of its source text. -/
theorem ofText_source {n : Nat} {v : Value} (hn : n + 2 ≤ maxNesting) (h : v.Denotable n)
    (hv : v.InOrder) (functions : List Function) (vars : Record) :
    ∃ e, ofText (Function.isKnown functions) v.source = .ok e ∧
      e.eval functions vars = .ok v := by
  obtain ⟨e, ls, hoperand, heval⟩ := h.denotes hv
  have hroom : 1 + (1 + n) ≤ maxNesting := by omega
  exact ⟨e, (hoperand.item (Nat.zero_le 50)).ofText_eq hoperand.lexed hroom,
    heval functions vars⟩

/-- Negative numbers of both kinds and texts with escapes, two levels deep. -/
def mixed : Value :=
  .object [("a \"b\"", .array [.number (.int (-7) (by decide) (by decide)), .string "\n\\"]),
    ("zero", .number (.float (.zero true) (by decide)))]

theorem denotable_mixed : mixed.Denotable 100 := by
  refine .object (List.forall_mem_cons.mpr ⟨.array ?_, List.forall_mem_singleton.mpr (.float _ _)⟩)
  exact List.forall_mem_cons.mpr ⟨.int _ _ (by decide), List.forall_mem_singleton.mpr (.string _)⟩

theorem inOrder_mixed : mixed.InOrder := by
  refine .object (by decide) (List.forall_mem_cons.mpr ⟨.array ?_, ?_⟩)
  · exact List.forall_mem_cons.mpr ⟨.scalar rfl, List.forall_mem_singleton.mpr (.scalar rfl)⟩
  · exact List.forall_mem_singleton.mpr (.scalar rfl)

theorem ofText_source_mixed :
    ∃ e, ofText (Function.isKnown []) mixed.source = .ok e ∧ e.eval [] [] = .ok mixed :=
  ofText_source (by decide) denotable_mixed inOrder_mixed [] []

example : mixed.source = "\x7b\"a \\\"b\\\"\": [-7, \"\\n\\\\\"], \"zero\": -0.0\x7d" := by rfl

end Value

end Criteria
