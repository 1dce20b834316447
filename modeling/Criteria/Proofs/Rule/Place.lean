import Criteria.Proofs.Decimal.Layout
import Criteria.Proofs.Expr.Sequence
import Criteria.Proofs.Rule.Document
import Criteria.Rule.Compile

/-!
# The place of a flaw

The entries of a document in the order in which they stand, each group before what it holds, and
each with its place. Reading stops at the first entry that is not well-formed, writing an
expression stops at the first one that has no expression, and both give the place of that entry,
which leads back to it.
-/

namespace Criteria

/-! ## The entries of a document -/

/-- An entry as it is read: a value with rules is a group, any other is a comparison. -/
inductive Entry where
  | group (v : Value)
  | leaf (v : Value)

/-- The value of a comparison is one that its operator can be written with. -/
def Leaf.Fits (l : Leaf) : Prop :=
  if l.op.isList then ∃ items, l.value = .array items ∧ ∀ v ∈ items, v.isScalar = true
  else l.op.ignoresValue = true ∨ l.value.isScalar = true

namespace Entry

def value : Entry → Value
  | group v | leaf v => v

/-- The members of the entry are not what its kind asks for. -/
def IllFormed : Entry → Prop
  | group v => ¬ ∃ c items, IsGroup v c items
  | leaf v => ¬ ∃ l, IsLeaf v l

/-- The entry is well-formed but has no expression: an empty group, or a comparison with a value
that does not fit its operator. -/
def Unfit : Entry → Prop
  | group v => ∃ c, IsGroup v c []
  | leaf v => ∃ l, IsLeaf v l ∧ ¬ l.Fits

end Entry

namespace Value

/-- What stands in the list `rules`. -/
def ruleItems (v : Value) : List Value :=
  match v.member? "rules" with
  | some (.array items) => items
  | _ => []

theorem sizeOf_ruleItems_le (v : Value) : sizeOf v.ruleItems ≤ sizeOf v := by
  unfold ruleItems
  split
  · next items h =>
    cases v with
    | object entries =>
      have hlookup := sizeOf_lookup (v := .array items) h
      simp only [array.sizeOf_spec, object.sizeOf_spec] at hlookup ⊢
      omega
    | _ => cases h
  · cases v <;> simp

mutual

/-- The group at `path` and then its entries. -/
def entriesOfGroup (path : Path) (v : Value) : List (Path × Entry) :=
  (path, .group v) :: entriesOfAll path 0 v.ruleItems
termination_by 3 * sizeOf v + 1
decreasing_by
  have := sizeOf_ruleItems_le v
  omega

def entries (path : Path) (v : Value) : List (Path × Entry) :=
  if v.hasRules then entriesOfGroup path v else [(path, .leaf v)]
termination_by 3 * sizeOf v + 2

/-- The entries of the group at `path` from the one with index `index` on. -/
def entriesOfAll (path : Path) (index : Nat) (items : List Value) : List (Path × Entry) :=
  match items with
  | [] => []
  | v :: rest => entries (path ++ [index]) v ++ entriesOfAll path (index + 1) rest
termination_by 3 * sizeOf items

end

/-- The entries of a document, of which the first one is the document itself. -/
def document (v : Value) : List (Path × Entry) := v.entriesOfGroup []

/-- Where a path leads, an index of a list `rules` at each step. -/
def at? (v : Value) : Path → Option Value
  | [] => some v
  | i :: p =>
    match v.ruleItems[i]? with
    | some w => w.at? p
    | none => none

end Value

theorem IsGroup.ruleItems_eq {v : Value} {c : Connective} {items : List Value}
    (h : IsGroup v c items) : v.ruleItems = items := by
  rw [Value.ruleItems, h.rules]

/-! ## Places -/

namespace Value

theorem ruleItems_of_hasRules {v : Value} (h : ¬ v.hasRules = true) : v.ruleItems = [] := by
  unfold hasRules at h
  unfold ruleItems
  split
  · next items hitems => simp [hitems] at h
  · rfl

mutual

/-- The entries of a group are what the paths inside it lead to. -/
theorem exists_mem_entriesOfGroup (path place : Path) (v w : Value) :
    (∃ e, (place, e) ∈ v.entriesOfGroup path ∧ e.value = w) ↔
      ∃ p, place = path ++ p ∧ v.at? p = some w := by
  rw [entriesOfGroup]
  constructor
  · rintro ⟨e, he, rfl⟩
    rcases List.mem_cons.mp he with hself | he
    · obtain ⟨rfl, rfl⟩ := Prod.mk.inj hself
      exact ⟨[], (List.append_nil place).symm, rfl⟩
    · obtain ⟨i, p, u, hu, hplace, hat⟩ :=
        (exists_mem_entriesOfAll path place 0 v.ruleItems e.value).mp ⟨e, he, rfl⟩
      exact ⟨i :: p, by simpa using hplace, by rw [at?, hu]; exact hat⟩
  · rintro ⟨p, hplace, hat⟩
    cases p with
    | nil =>
      rw [List.append_nil] at hplace
      rw [hplace]
      exact ⟨.group v, List.mem_cons_self, Option.some.inj hat⟩
    | cons i p =>
      rw [at?] at hat
      split at hat
      · next u hu =>
        obtain ⟨e, he, hw⟩ := (exists_mem_entriesOfAll path place 0 v.ruleItems w).mpr
          ⟨i, p, u, hu, by simpa using hplace, hat⟩
        exact ⟨e, List.mem_cons_of_mem _ he, hw⟩
      · cases hat
termination_by 3 * sizeOf v + 1
decreasing_by
  all_goals
    have := sizeOf_ruleItems_le v
    omega

theorem exists_mem_entries (path place : Path) (v w : Value) :
    (∃ e, (place, e) ∈ v.entries path ∧ e.value = w) ↔
      ∃ p, place = path ++ p ∧ v.at? p = some w := by
  rw [entries]
  split
  · exact exists_mem_entriesOfGroup path place v w
  · next hrules =>
    constructor
    · rintro ⟨e, he, rfl⟩
      obtain ⟨⟩ := List.mem_singleton.mp he
      exact ⟨[], (List.append_nil path).symm, rfl⟩
    · rintro ⟨p, hplace, hat⟩
      cases p with
      | nil =>
        rw [List.append_nil] at hplace
        rw [hplace]
        exact ⟨.leaf v, List.mem_cons_self, Option.some.inj hat⟩
      | cons i p => simp [at?, ruleItems_of_hasRules hrules] at hat
termination_by 3 * sizeOf v + 2

theorem exists_mem_entriesOfAll (path place : Path) (index : Nat) (items : List Value)
    (w : Value) :
    (∃ e, (place, e) ∈ entriesOfAll path index items ∧ e.value = w) ↔
      ∃ (i : Nat) (p : Path) (u : Value), items[i]? = some u ∧
        place = path ++ (index + i) :: p ∧ u.at? p = some w := by
  cases items with
  | nil => simp [entriesOfAll]
  | cons v rest =>
    rw [entriesOfAll]
    constructor
    · rintro ⟨e, he, rfl⟩
      rcases List.mem_append.mp he with he | he
      · obtain ⟨p, hplace, hat⟩ :=
          (exists_mem_entries (path ++ [index]) place v e.value).mp ⟨e, he, rfl⟩
        exact ⟨0, p, v, rfl, by simpa using hplace, hat⟩
      · obtain ⟨i, p, u, hu, hplace, hat⟩ :=
          (exists_mem_entriesOfAll path place (index + 1) rest e.value).mp ⟨e, he, rfl⟩
        exact ⟨i + 1, p, u, hu, by rw [hplace, Nat.add_right_comm, Nat.add_assoc], hat⟩
    · rintro ⟨i, p, u, hu, hplace, hat⟩
      cases i with
      | zero =>
        obtain rfl := Option.some.inj hu
        obtain ⟨e, he, hw⟩ := (exists_mem_entries (path ++ [index]) place v w).mpr
          ⟨p, by simpa using hplace, hat⟩
        exact ⟨e, List.mem_append_left _ he, hw⟩
      | succ i =>
        obtain ⟨e, he, hw⟩ := (exists_mem_entriesOfAll path place (index + 1) rest w).mpr
          ⟨i, p, u, hu, by rw [hplace, Nat.add_right_comm, Nat.add_assoc], hat⟩
        exact ⟨e, List.mem_append_right _ he, hw⟩
termination_by 3 * sizeOf items

end

/-- The places of a document are the paths that lead to something. -/
theorem at?_eq_some_iff (v w : Value) (p : Path) :
    v.at? p = some w ↔ ∃ e, (p, e) ∈ v.document ∧ e.value = w := by
  rw [document, exists_mem_entriesOfGroup]
  simp

mutual

/-- A place stands before the places inside it and before those of later entries. -/
theorem pairwise_entriesOfGroup (path : Path) (v : Value) :
    (v.entriesOfGroup path).Pairwise (·.1 < ·.1) := by
  rw [entriesOfGroup]
  refine List.pairwise_cons.mpr ⟨fun e he => ?_, pairwise_entriesOfAll path 0 v.ruleItems⟩
  obtain ⟨i, p, -, -, hplace, -⟩ :=
    (exists_mem_entriesOfAll path e.1 0 v.ruleItems e.2.value).mp ⟨e.2, he, rfl⟩
  rw [hplace]
  conv => lhs; rw [← List.append_nil path]
  exact List.append_left_lt (List.nil_lt_cons ..)
termination_by 3 * sizeOf v + 1
decreasing_by
  have := sizeOf_ruleItems_le v
  omega

theorem pairwise_entries (path : Path) (v : Value) :
    (v.entries path).Pairwise (·.1 < ·.1) := by
  rw [entries]
  split
  · exact pairwise_entriesOfGroup path v
  · exact List.pairwise_singleton ..
termination_by 3 * sizeOf v + 2

theorem pairwise_entriesOfAll (path : Path) (index : Nat) (items : List Value) :
    (entriesOfAll path index items).Pairwise (·.1 < ·.1) := by
  cases items with
  | nil =>
    rw [entriesOfAll]
    exact .nil
  | cons v rest =>
    rw [entriesOfAll]
    refine List.pairwise_append.mpr ⟨pairwise_entries (path ++ [index]) v,
      pairwise_entriesOfAll path (index + 1) rest, fun e he e' he' => ?_⟩
    obtain ⟨p, hplace, -⟩ :=
      (exists_mem_entries (path ++ [index]) e.1 v e.2.value).mp ⟨e.2, he, rfl⟩
    obtain ⟨i, p', -, -, hplace', -⟩ :=
      (exists_mem_entriesOfAll path e'.1 (index + 1) rest e'.2.value).mp ⟨e'.2, he', rfl⟩
    -- The paths part at the index of the group, which is less for the earlier entry.
    rw [hplace, hplace', List.append_assoc, List.singleton_append]
    exact List.append_left_lt (List.cons_lt_cons_iff.mpr (.inl (by omega)))
termination_by 3 * sizeOf items

end

end Value

namespace Path

/-- One step of a place as it is written. -/
def step (i : Nat) : String := "rules[" ++ intText i ++ "]"

theorem toList_step (i : Nat) :
    (step i).toList = "rules[".toList ++ (Nat.toDigits 10 i ++ [']']) := by
  have hstep : step i = "rules[" ++ String.ofList (Nat.toDigits 10 i) ++ "]" := rfl
  rw [hstep, String.toList_append, String.toList_append, List.append_assoc]
  exact congrArg (fun ds => "rules[".toList ++ (ds ++ [']'])) String.toList_ofList

theorem toList_text_cons (i : Nat) (p : Path) :
    (text (i :: p)).toList = (step i).toList ++ p.flatMap fun j => '.' :: (step j).toList := by
  have htext : text (i :: p) = String.intercalate "." ((i :: p).map step) := rfl
  rw [htext, String.toList_intercalate, List.map_map, List.map_cons, Expr.intercalate_cons,
    List.flatMap_map]
  rfl

/-- The index of a step ends at the first bracket. -/
theorem step_append_inj {i j : Nat} {r s : List Char}
    (h : (step i).toList ++ r = (step j).toList ++ s) : i = j ∧ r = s := by
  have hdigits (n : Nat) (t : List Char) :
      (Nat.toDigits 10 n ++ ']' :: t).takeWhile (· ≠ ']') = Nat.toDigits 10 n := by
    rw [List.takeWhile_append_of_pos]
    · simp
    · intro c hc
      have hdigit := Text.isAsciiDigit_of_mem_toDigits hc
      simp only [ne_eq, decide_eq_true_eq]
      rintro rfl
      exact absurd hdigit (by decide)
  simp only [toList_step, List.append_assoc, List.append_cancel_left_eq,
    List.singleton_append] at h
  have hij : Nat.toDigits 10 i = Nat.toDigits 10 j := by rw [← hdigits i r, h, hdigits j s]
  rw [hij, List.append_cancel_left_eq, List.cons_inj_right] at h
  exact ⟨by rw [← Text.digitsValue_toDigits i, hij, Text.digitsValue_toDigits], h⟩

theorem flatMap_step_inj {p q : Path}
    (h : (p.flatMap fun i => '.' :: (step i).toList) = q.flatMap fun i => '.' :: (step i).toList) :
    p = q := by
  induction p generalizing q with
  | nil =>
    cases q with
    | nil => rfl
    | cons j q => cases h
  | cons i p ih =>
    cases q with
    | nil => cases h
    | cons j q =>
      obtain ⟨rfl, hrest⟩ := step_append_inj (List.cons.inj h).2
      rw [ih hrest]

/-- A place is written without loss. -/
theorem text_injective : Function.Injective text := by
  intro p q h
  have hroot (i : Nat) (p : Path) : text [] ≠ text (i :: p) := by
    intro hroot
    have hchars := congrArg String.toList hroot
    rw [toList_text_cons, toList_step] at hchars
    cases hchars
  cases p with
  | nil =>
    cases q with
    | nil => rfl
    | cons j q => exact absurd h (hroot j q)
  | cons i p =>
    cases q with
    | nil => exact absurd h.symm (hroot i p)
    | cons j q =>
      have hchars := congrArg String.toList h
      rw [toList_text_cons, toList_text_cons] at hchars
      obtain ⟨rfl, hrest⟩ := step_append_inj hchars
      rw [flatMap_step_inj hrest]

end Path

/-! ## Results about the entries of a document -/

section

variable {ε α β : Type} {P : ε → Prop}

/-- Of the entries with the property `P`, `e` is the first. -/
def IsFirst (P : ε → Prop) (es : List (Path × ε)) (e : Path × ε) : Prop :=
  P e.2 ∧ ∃ before after, es = before ++ e :: after ∧ ∀ b ∈ before, ¬ P b.2

/-- The result is an error if an entry has the property `P`, and then the error is about the
first such entry. -/
structure Reports (P : ε → Prop) (es : List (Path × ε)) (x : Except RuleError α) : Prop where
  none : ∀ a, x = .ok a → ∀ e ∈ es, ¬ P e.2
  first : ∀ err, x = .error err → ∃ e flaw, err = .malformed (.rule e.1 flaw) ∧ IsFirst P es e

namespace Reports

variable {es es' : List (Path × ε)} {x : Except RuleError α}

theorem ok (a : α) : Reports P [] (.ok a) where
  none _ _ := by simp
  first _ h := nomatch h

theorem flaw {path : Path} {e : ε} {f : Flaw} (he : P e) (es : List (Path × ε)) :
    Reports P ((path, e) :: es) (Rule.flaw path f : Except RuleError α) where
  none _ h := nomatch h
  first err h := by
    cases h
    exact ⟨(path, e), f, rfl, he, [], es, rfl, by simp⟩

theorem cons (h : Reports P es x) {path : Path} {e : ε} (he : ¬ P e) :
    Reports P ((path, e) :: es) x where
  none a ha := List.forall_mem_cons.mpr ⟨he, h.none a ha⟩
  first err herr := by
    obtain ⟨e', f, hmessage, hP, before, after, hes, hbefore⟩ := h.first err herr
    exact ⟨e', f, hmessage, hP, (path, e) :: before, after, by rw [hes]; rfl,
      List.forall_mem_cons.mpr ⟨he, hbefore⟩⟩

theorem bind {f : α → Except RuleError β} (hx : Reports P es x) (hf : ∀ a, Reports P es' (f a)) :
    Reports P (es ++ es') (x >>= f) := by
  cases x with
  | error err =>
    refine ⟨nofun, fun err' herr => ?_⟩
    obtain rfl : err = err' := Except.error.inj herr
    obtain ⟨e, g, hmessage, hP, before, after, hes, hbefore⟩ := hx.first err rfl
    exact ⟨e, g, hmessage, hP, before, after ++ es', by rw [hes, List.append_assoc]; rfl, hbefore⟩
  | ok a =>
    refine ⟨fun b hb => List.forall_mem_append.mpr ⟨hx.none a rfl, (hf a).none b hb⟩,
      fun err herr => ?_⟩
    obtain ⟨e, g, hmessage, hP, before, after, hes, hbefore⟩ := (hf a).first err herr
    exact ⟨e, g, hmessage, hP, es ++ before, after, by rw [hes, List.append_assoc],
      List.forall_mem_append.mpr ⟨hx.none a rfl, hbefore⟩⟩

theorem map (hx : Reports P es x) (f : α → β) : Reports P es (x >>= fun a => .ok (f a)) := by
  simpa using hx.bind fun a => ok (f a)

theorem error_iff (hx : Reports P es x) : (∃ err, x = .error err) ↔ ∃ e ∈ es, P e.2 := by
  constructor
  · rintro ⟨err, herr⟩
    obtain ⟨e, -, -, he, before, after, hes, -⟩ := hx.first err herr
    exact ⟨e, by simp [hes], he⟩
  · rintro ⟨e, he, hP⟩
    cases x with
    | error err => exact ⟨err, rfl⟩
    | ok a => exact absurd hP (hx.none a rfl e he)

end Reports

end

/-! ## Reading -/

namespace Rule

theorem reports_readLeaf (path : Path) (v : Value) :
    Reports Entry.IllFormed [(path, .leaf v)] (readLeaf path v) := by
  by_cases hleaf : ∃ l, IsLeaf v l
  · obtain ⟨l, hl⟩ := hleaf
    rw [(checks_readLeaf path v).ok l hl]
    exact (Reports.ok l).cons fun hill => hill ⟨l, hl⟩
  · obtain ⟨f, hf⟩ := (checks_readLeaf path v).flaw fun l hl => hleaf ⟨l, hl⟩
    rw [hf]
    exact .flaw (e := Entry.leaf v) hleaf []

mutual

theorem reports_readGroup (path : Path) (v : Value) :
    Reports Entry.IllFormed (v.entriesOfGroup path) (readGroup path v) := by
  rw [Value.entriesOfGroup]
  by_cases hgroup : ∃ c items, IsGroup v c items
  · -- The group itself is in order, so that its entries decide.
    obtain ⟨c, items, h⟩ := hgroup
    have := h.sizeOf_lt
    rw [readGroup_of_isGroup h, h.ruleItems_eq]
    exact ((reports_readEntries path 0 items).map _).cons fun hill => hill ⟨c, items, h⟩
  · obtain ⟨f, hf⟩ := (checks_readHead path v).flaw fun head h => hgroup ⟨head.1, head.2, h⟩
    rw [readGroup_eq, hf]
    exact .flaw (e := Entry.group v) hgroup _
termination_by 2 * sizeOf v

theorem reports_readEntry (path : Path) (v : Value) :
    Reports Entry.IllFormed (v.entries path) (readEntry path v) := by
  rw [readEntry, Value.entries]
  split
  · exact (reports_readGroup path v).map _
  · exact (reports_readLeaf path v).map _
termination_by 2 * sizeOf v + 1

theorem reports_readEntries (path : Path) (index : Nat) (items : List Value) :
    Reports Entry.IllFormed (Value.entriesOfAll path index items)
      (readEntries path index items) := by
  cases items with
  | nil =>
    rw [readEntries, Value.entriesOfAll]
    exact .ok []
  | cons v rest =>
    rw [readEntries, Value.entriesOfAll]
    exact (reports_readEntry (path ++ [index]) v).bind fun rule =>
      (reports_readEntries path (index + 1) rest).map _
termination_by 2 * sizeOf items

end

theorem readEntries_eq_nil_iff {path : Path} {index : Nat} {items : List Value} {rules : List Rule}
    (h : readEntries path index items = .ok rules) : rules = [] ↔ items = [] := by
  cases items with
  | nil =>
    rw [readEntries] at h
    cases h
    simp
  | cons v rest =>
    rw [readEntries] at h
    obtain ⟨rule, -, h⟩ := Expr.bind_eq_ok h
    obtain ⟨rules, -, h⟩ := Expr.bind_eq_ok h
    cases h
    simp

end Rule

/-! ## Writing the expression -/

namespace CompileOptions

variable (o : CompileOptions)

theorem isSome_literal? (v : Value) : (o.literal? v).isSome = v.isScalar := by
  unfold literal?
  cases o.style <;> cases v <;> rfl

theorem isSome_item? (v : Value) : (o.item? v).isSome = v.isScalar := by
  unfold item?
  cases o.style <;> cases v <;> rfl

theorem isSome_items (vs : List Value) : (vs.mapM o.item?).isSome = vs.all Value.isScalar := by
  induction vs with
  | nil => rfl
  | cons v vs ih =>
    rw [List.mapM_cons, List.all_cons, ← o.isSome_item? v, ← ih]
    cases o.item? v with
    | none => rfl
    | some s => cases vs.mapM o.item? <;> rfl

end CompileOptions

namespace Leaf

variable {ε : Type} {P : ε → Prop} {e : ε} (o : CompileOptions) (path : Path) (l : Leaf)

theorem reports_literal (h : P e ↔ ¬ l.value.isScalar = true) :
    Reports P [(path, e)] (l.literal o path) := by
  rw [← o.isSome_literal?] at h
  unfold literal
  split
  · next s hs => exact (Reports.ok s).cons (by simp [h, hs])
  · next hs => exact .flaw (by simp [h, hs]) []

theorem reports_items
    (h : P e ↔ ¬ ∃ items, l.value = .array items ∧ ∀ v ∈ items, v.isScalar = true) :
    Reports P [(path, e)] (l.items o path) := by
  unfold items
  split
  · next vs hvs =>
    have hP : P e ↔ ¬ (vs.mapM o.item?).isSome = true := by
      rw [h, hvs, o.isSome_items, List.all_eq_true]
      simp
    split
    · next texts htexts => exact (Reports.ok _).cons (by simp [hP, htexts])
    · next htexts => exact .flaw (by simp [hP, htexts]) []
  · next hvs =>
    refine .flaw (h.mpr ?_) []
    rintro ⟨items, hitems, -⟩
    exact hvs items hitems

theorem reports_compile (h : P e ↔ ¬ l.Fits) : Reports P [(path, e)] (l.compile o path) := by
  obtain ⟨field, op, value⟩ := l
  cases op with
  | member | notMember => exact (reports_items o path _ h).map _
  | isEmpty | isNotEmpty | isNull | isNotNull =>
    exact (Reports.ok _).cons fun he => h.mp he (.inl rfl)
  | _ =>
    refine (reports_literal o path _ (h.trans (not_congr ?_))).map _
    simp [Fits, RuleOp.isList, RuleOp.ignoresValue]

end Leaf

namespace Rule

variable (o : CompileOptions)

mutual

theorem reports_compileGroup {path : Path} {v : Value} {g : RuleGroup}
    (h : readGroup path v = .ok g) :
    Reports Entry.Unfit (v.entriesOfGroup path) (compileGroup o path g.connective g.rules) := by
  obtain ⟨items, hgroup, hitems⟩ := isGroup_of_readGroup h
  have hsize := hgroup.sizeOf_lt
  have hparts := reports_compileAll hitems
  have hempty := readEntries_eq_nil_iff hitems
  rw [Value.entriesOfGroup, hgroup.ruleItems_eq]
  -- Nothing is read from no entries only, so an empty group is empty in the document.
  cases hrules : g.rules with
  | nil =>
    rw [compileGroup]
    refine .flaw (e := Entry.group v) ⟨g.connective, ?_⟩ _
    rwa [← hempty.mp hrules]
  | cons r rs =>
    rw [compileGroup, ← hrules]
    refine (hparts.map _).cons ?_
    rintro ⟨c, hnil⟩
    have hrules' := hempty.mpr (hgroup.unique hnil).2
    rw [hrules] at hrules'
    cases hrules'
termination_by 2 * sizeOf v

theorem reports_compile {path : Path} {v : Value} {r : Rule} (h : readEntry path v = .ok r) :
    Reports Entry.Unfit (v.entries path) (r.compile o path) := by
  rw [readEntry] at h
  rw [Value.entries]
  split at h
  · next hrules =>
    obtain ⟨g, hg, h⟩ := Expr.bind_eq_ok h
    cases h
    rw [if_pos hrules, RuleGroup.toRule, compile]
    exact (reports_compileGroup hg).map _
  · next hrules =>
    obtain ⟨l, hl, h⟩ := Expr.bind_eq_ok h
    cases h
    have hleaf := (checks_readLeaf path v).of_ok hl
    rw [if_neg hrules, compile]
    refine l.reports_compile o path (e := Entry.leaf v) ⟨?_, fun hfits => ⟨l, hleaf, hfits⟩⟩
    rintro ⟨l', hleaf', hfits⟩
    rwa [hleaf.unique hleaf']
termination_by 2 * sizeOf v + 1

theorem reports_compileAll {path : Path} {index : Nat} {items : List Value} {rules : List Rule}
    (h : readEntries path index items = .ok rules) :
    Reports Entry.Unfit (Value.entriesOfAll path index items) (compileAll o path index rules) := by
  cases items with
  | nil =>
    rw [readEntries] at h
    cases h
    rw [compileAll, Value.entriesOfAll]
    exact .ok []
  | cons v rest =>
    rw [readEntries] at h
    obtain ⟨r, hr, h⟩ := Expr.bind_eq_ok h
    obtain ⟨rs, hrs, h⟩ := Expr.bind_eq_ok h
    cases h
    rw [compileAll, Value.entriesOfAll]
    exact (reports_compile hr).bind fun part => (reports_compileAll hrs).map _
termination_by 2 * sizeOf items

end

end Rule

/-! ## Documents -/

namespace RuleGroup

/-- A document is read unless an entry is ill-formed, and what is read has an expression unless an
entry is unfit for one. The error has the place of the first such entry. The places of a
document are the paths that lead to a value, in the order of the document, and no two of them are
written alike. -/
theorem first_flaw_of_document (o : CompileOptions) (v : Value) :
    ((∃ err, ofValue v = .error err) ↔ ∃ e ∈ v.document, e.2.IllFormed) ∧
      (∀ err, ofValue v = .error err → ∃ e flaw, err = .malformed (.rule e.1 flaw) ∧
        IsFirst Entry.IllFormed v.document e) ∧
      (∀ g, ofValue v = .ok g →
        ((∃ err, g.compile o = .error err) ↔ ∃ e ∈ v.document, e.2.Unfit) ∧
          ∀ err, g.compile o = .error err → ∃ e flaw, err = .malformed (.rule e.1 flaw) ∧
            IsFirst Entry.Unfit v.document e) ∧
      (∀ p w, v.at? p = some w ↔ ∃ e, (p, e) ∈ v.document ∧ e.value = w) ∧
      v.document.Pairwise (·.1 < ·.1) ∧ (v.document.map (Path.text ·.1)).Nodup := by
  have hreading := Rule.reports_readGroup [] v
  have hplaces := Value.pairwise_entriesOfGroup [] v
  refine ⟨hreading.error_iff, hreading.first, fun g hg => ?_, fun p w => v.at?_eq_some_iff w p,
    hplaces, ?_⟩
  · have hcompiling := Rule.reports_compileGroup o hg
    exact ⟨hcompiling.error_iff, hcompiling.first⟩
  · refine List.pairwise_map.mpr (hplaces.imp fun hlt htext => ?_)
    rw [Path.text_injective htext] at hlt
    exact List.lt_irrefl _ hlt

/-- A document whose second entry is a group of two entries that are both unfit. -/
def unfitPair : Value :=
  .object [("condition", .string "AND"), ("rules", .array [
    .object [("field", .string "a"), ("operator", .string "is_null"), ("value", .array [])],
    .object [("condition", .string "or"), ("rules", .array [
      .object [("field", .string "b"), ("operator", .string "in"), ("value", .array [.array []])],
      .object [("condition", .string "and"), ("rules", .array [])]])]])]

theorem first_flaw_of_document_unfitPair :
    ∃ g, ofValue unfitPair = .ok g ∧
      g.compile .standard = .error (.malformed (.rule [1, 0] .itemNotScalar)) ∧
      ∃ e, e.1 = [1, 0] ∧ IsFirst Entry.Unfit unfitPair.document e := by
  have hread : (ofValue unfitPair).toOption = some ⟨.and, [.leaf ⟨"a", .isNull, .array []⟩,
      .group .or [.leaf ⟨"b", .member, .array [.array []]⟩, .group .and []]]⟩ := by
    decide +kernel
  cases h : ofValue unfitPair with
  | error e =>
    rw [h] at hread
    cases hread
  | ok g =>
    have hcompile : g.compile .standard = .error (.malformed (.rule [1, 0] .itemNotScalar)) := by
      rw [h] at hread
      rw [Option.some.inj hread]
      simp only [compile, Rule.compileGroup, Rule.compileAll, Rule.compile]
      rfl
    refine ⟨g, rfl, hcompile, ?_⟩
    obtain ⟨-, -, hcompiling, -⟩ := first_flaw_of_document .standard unfitPair
    obtain ⟨e, flaw, herr, hfirst⟩ := (hcompiling g h).2 _ hcompile
    obtain ⟨hplace, -⟩ := Malformed.rule.inj (RuleError.malformed.inj herr)
    exact ⟨e, hplace.symm, hfirst⟩

end RuleGroup

end Criteria
