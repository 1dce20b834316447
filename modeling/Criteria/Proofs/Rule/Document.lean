import Criteria.Proofs.Expr.Soundness
import Criteria.Rule.Reading

/-!
# Documents of rules

What the members of a value have to be for it to be a group or a comparison. A value of this
kind is read as what its members say, and any other value gives a flaw at its own place.

What has been read can be written as a value and is then read again: widgets, the letter case of
a connective and everything else that is lost on reading makes no difference.
-/

namespace Criteria

/-- The value `v` is a group under `c` with the entries `items`. -/
structure IsGroup (v : Value) (c : Connective) (items : List Value) : Prop where
  condition : ∃ s, v.member? "condition" = some (.string s) ∧ Connective.ofName? s = some c
  rules : v.member? "rules" = some (.array items)

/-- The value `v` is the comparison `l`. -/
structure IsLeaf (v : Value) (l : Leaf) : Prop where
  field : v.member? "field" = some (.string l.field)
  field_ne : l.field ≠ ""
  operator : ∃ s, v.member? "operator" = some (.string s) ∧ RuleOp.ofName s = l.op
  value : v.member? "value" = some l.value

namespace Rule

/-- The result is what has the property `P`, or a flaw at `path` if nothing has it. -/
structure Checks {α : Type} (path : Path) (P : α → Prop) (x : Except RuleError α) : Prop where
  ok : ∀ a, P a → x = .ok a
  flaw : (∀ a, ¬ P a) → ∃ f, x = Rule.flaw path f

namespace Checks

variable {α β : Type} {path : Path} {P : α → Prop} {x : Except RuleError α}

theorem of_ok (h : Checks path P x) {a : α} (hx : x = .ok a) : P a := by
  by_cases hP : ∃ b, P b
  · obtain ⟨b, hb⟩ := hP
    obtain rfl : a = b := Except.ok.inj (hx.symm.trans (h.ok b hb))
    exact hb
  · obtain ⟨f, hf⟩ := h.flaw fun a ha => hP ⟨a, ha⟩
    cases hx.symm.trans hf

theorem intro_ok {a : α} (h : ∀ b, P b ↔ b = a) : Checks path P (.ok a) where
  ok b hb := by rw [(h b).mp hb]
  flaw hn := absurd ((h a).mpr rfl) (hn a)

theorem intro_flaw {f : Flaw} (h : ∀ b, ¬ P b) : Checks path P (Rule.flaw path f) where
  ok b hb := absurd hb (h b)
  flaw _ := ⟨f, rfl⟩

theorem bind {Q : β → Prop} {R : α → β → Prop} {f : α → Except RuleError β}
    (h : Checks path P x) (hf : ∀ a, P a → Checks path (R a) (f a))
    (hQ : ∀ b, Q b ↔ ∃ a, P a ∧ R a b) : Checks path Q (x >>= f) where
  ok b hb := by
    obtain ⟨a, ha, hab⟩ := (hQ b).mp hb
    rw [h.ok a ha]
    exact (hf a ha).ok b hab
  flaw hn := by
    by_cases hP : ∃ a, P a
    · obtain ⟨a, ha⟩ := hP
      rw [h.ok a ha]
      exact (hf a ha).flaw fun b hb => hn b ((hQ b).mpr ⟨a, ha, hb⟩)
    · obtain ⟨g, hg⟩ := h.flaw fun a ha => hP ⟨a, ha⟩
      exact ⟨g, by rw [hg]; rfl⟩

end Checks

section

variable (path : Path) (entries : Record)

theorem checks_readConnective :
    Checks path (fun c => ∃ s, entries.lookup "condition" = some (.string s) ∧
      Connective.ofName? s = some c) (readConnective path entries) := by
  unfold readConnective
  split
  · next h => exact .intro_flaw (by simp [h])
  · next s h =>
    split
    · next c hc => exact .intro_ok (by simp [h, hc, eq_comm])
    · next hc => exact .intro_flaw (by simp [h, hc])
  · next v hv h =>
    refine .intro_flaw ?_
    rintro c ⟨s, hs, -⟩
    exact hv s (Option.some.inj (h.symm.trans hs))

theorem checks_readField :
    Checks path (fun s => entries.lookup "field" = some (.string s) ∧ s ≠ "")
      (readField path entries) := by
  unfold readField
  split
  · next h => exact .intro_flaw (by simp [h])
  · next s h =>
    split
    · next hs => exact .intro_flaw (by simp [h, hs, eq_comm])
    · next hs =>
      refine .intro_ok fun t => ?_
      constructor
      · rintro ⟨ht, -⟩
        simpa [h, eq_comm] using ht
      · rintro rfl
        exact ⟨h, hs⟩
  · next v hv h =>
    refine .intro_flaw ?_
    rintro s ⟨hs, -⟩
    exact hv s (Option.some.inj (h.symm.trans hs))

theorem checks_readOp :
    Checks path (fun op => ∃ s, entries.lookup "operator" = some (.string s) ∧
      RuleOp.ofName s = op) (readOp path entries) := by
  unfold readOp
  split
  · next h => exact .intro_flaw (by simp [h])
  · next s h => exact .intro_ok (by simp [h, eq_comm])
  · next v hv h =>
    refine .intro_flaw ?_
    rintro op ⟨s, hs, -⟩
    exact hv s (Option.some.inj (h.symm.trans hs))

theorem checks_readOperand :
    Checks path (fun v => entries.lookup "value" = some v) (readOperand path entries) := by
  unfold readOperand
  split
  · next h => exact .intro_flaw (by simp [h])
  · next v h => exact .intro_ok (by simp [h, eq_comm])

end

/-- A comparison is read as what it is. -/
theorem checks_readLeaf (path : Path) (v : Value) : Checks path (IsLeaf v) (readLeaf path v) := by
  cases v with
  | object entries =>
    rw [readLeaf]
    refine (checks_readField path entries).bind (Q := IsLeaf _) (fun field _ =>
      (checks_readOp path entries).bind (fun op _ =>
        (checks_readOperand path entries).bind (R := fun value l => l = ⟨field, op, value⟩)
          (fun value _ => .intro_ok fun l => Iff.rfl) fun l => Iff.rfl) fun l => Iff.rfl) ?_
    rintro ⟨field, op, value⟩
    constructor
    · rintro ⟨hfield, hne, ⟨s, hs, hop⟩, hvalue⟩
      exact ⟨field, ⟨hfield, hne⟩, op, ⟨s, hs, hop⟩, value, hvalue, rfl⟩
    · rintro ⟨field, ⟨hfield, hne⟩, op, ⟨s, hs, hop⟩, value, hvalue, ⟨⟩⟩
      exact ⟨hfield, hne, ⟨s, hs, hop⟩, hvalue⟩
  | _ =>
    refine .intro_flaw fun l h => ?_
    cases h.value

/-- The connective and the entries of the group at `path`. -/
def readHead (path : Path) (v : Value) : Except RuleError (Connective × List Value) :=
  match v with
  | .object entries => do
    let connective ← readConnective path entries
    match entries.lookup "rules" with
    | none => flaw path (.missing .rules)
    | some (.array items) => return (connective, items)
    | some _ => flaw path .rulesNotArray
  | _ => flaw path .groupNotObject

theorem checks_readHead (path : Path) (v : Value) :
    Checks path (fun head => IsGroup v head.1 head.2) (readHead path v) := by
  cases v with
  | object entries =>
    rw [readHead]
    refine (checks_readConnective path entries).bind
      (R := fun c head => entries.lookup "rules" = some (.array head.2) ∧ head.1 = c)
      (fun c _ => ?_) ?_
    · split
      · next h => exact .intro_flaw (by simp [h])
      · next items h => exact .intro_ok fun head => by simp [h, Prod.ext_iff, eq_comm, and_comm]
      · next w hw h =>
        refine .intro_flaw ?_
        rintro head ⟨hs, -⟩
        exact hw head.2 (Option.some.inj (h.symm.trans hs))
    · rintro ⟨c, items⟩
      constructor
      · rintro ⟨⟨s, hs, hc⟩, hrules⟩
        exact ⟨c, ⟨s, hs, hc⟩, hrules, rfl⟩
      · rintro ⟨_, ⟨s, hs, hc⟩, hrules, rfl⟩
        exact ⟨⟨s, hs, hc⟩, hrules⟩
  | _ =>
    refine .intro_flaw fun head h => ?_
    cases h.rules

/-- A group is read by its connective and its entries. -/
theorem readGroup_eq (path : Path) (v : Value) :
    readGroup path v = (do
      let (connective, items) ← readHead path v
      return ⟨connective, ← readEntries path 0 items⟩) := by
  cases v with
  | object entries =>
    rw [readGroup, readHead]
    cases readConnective path entries with
    | error e => rfl
    | ok c =>
      simp only [bind, Except.bind]
      split
      · next h => simp only [h]; rfl
      · next items h => simp only [h]; rfl
      · next w hw h =>
        cases w with
        | array items => exact (hw items rfl).elim
        | _ => simp only [h]; rfl
  | _ =>
    rw [readGroup]
    · rfl
    · simp

end Rule

/-! ## What is read -/

theorem IsGroup.unique {v : Value} {c c' : Connective} {items items' : List Value}
    (h : IsGroup v c items) (h' : IsGroup v c' items') : c = c' ∧ items = items' := by
  have hhead := ((Rule.checks_readHead [] v).ok (c, items) h).symm.trans
    ((Rule.checks_readHead [] v).ok (c', items') h')
  exact Prod.mk.inj (Except.ok.inj hhead)

theorem IsGroup.sizeOf_lt {v : Value} {c : Connective} {items : List Value}
    (h : IsGroup v c items) : sizeOf items < sizeOf v := by
  cases v with
  | object entries =>
    have hlookup := sizeOf_lookup (v := .array items) h.rules
    simp only [Value.array.sizeOf_spec, Value.object.sizeOf_spec] at hlookup ⊢
    omega
  | _ => cases h.rules

theorem IsGroup.hasRules {v : Value} {c : Connective} {items : List Value} (h : IsGroup v c items) :
    v.hasRules = true := by
  rw [Value.hasRules, h.rules]

theorem IsLeaf.unique {v : Value} {l l' : Leaf} (h : IsLeaf v l) (h' : IsLeaf v l') : l = l' :=
  Except.ok.inj (((Rule.checks_readLeaf [] v).ok l h).symm.trans
    ((Rule.checks_readLeaf [] v).ok l' h'))

namespace Rule

variable {path : Path} {v : Value}

theorem readGroup_of_isGroup {c : Connective} {items : List Value} (h : IsGroup v c items) :
    readGroup path v = (do return ⟨c, ← readEntries path 0 items⟩) := by
  rw [readGroup_eq, (checks_readHead path v).ok (c, items) h]
  rfl

theorem isGroup_of_readGroup {g : RuleGroup} (h : readGroup path v = .ok g) :
    ∃ items, IsGroup v g.connective items ∧ readEntries path 0 items = .ok g.rules := by
  rw [readGroup_eq] at h
  obtain ⟨⟨c, items⟩, hhead, h⟩ := Expr.bind_eq_ok h
  obtain ⟨rules, hrules, h⟩ := Expr.bind_eq_ok h
  cases h
  exact ⟨items, (checks_readHead path v).of_ok hhead, hrules⟩

end Rule

/-! ## Written and read again -/

/-- The trees that are written as documents: fields have a name, and an operator is no other name
for a built-in one. -/
inductive Rule.WellNamed : Rule → Prop
  | leaf {l : Leaf} : l.field ≠ "" → RuleOp.ofName l.op.name = l.op → WellNamed (.leaf l)
  | group {c : Connective} {rules : List Rule} : (∀ r ∈ rules, WellNamed r) →
      WellNamed (.group c rules)

theorem RuleOp.ofName_name (s : String) :
    RuleOp.ofName (RuleOp.ofName s).name = RuleOp.ofName s := by
  unfold ofName
  cases h : builtIn.find? (·.name == s) with
  | none =>
    change (builtIn.find? (·.name == s)).getD (custom s) = custom s
    rw [h]
    rfl
  | some op =>
    have hs : op.name = s := by simpa using List.find?_some h
    simp [hs, h]

theorem Connective.ofName?_name (c : Connective) : ofName? c.name = some c := by
  cases c <;> rfl

theorem Leaf.isLeaf_toValue {l : Leaf} (hfield : l.field ≠ "")
    (hop : RuleOp.ofName l.op.name = l.op) :
    IsLeaf l.toValue l where
  field := rfl
  field_ne := hfield
  operator := ⟨_, rfl, hop⟩
  value := rfl

namespace Rule

theorem isGroup_toValue (c : Connective) (rules : List Rule) :
    IsGroup (group c rules).toValue c (toValues rules) where
  condition := ⟨_, rfl, c.ofName?_name⟩
  rules := rfl

mutual

theorem readEntry_toValue {r : Rule} (h : r.WellNamed) (path : Path) :
    readEntry path r.toValue = .ok r := by
  cases r with
  | leaf l =>
    obtain ⟨hfield, hop⟩ | _ := h
    have hleaf : (Rule.leaf l).toValue.hasRules = false := rfl
    rw [readEntry, if_neg (by rw [hleaf]; decide), toValue,
      (checks_readLeaf path _).ok l (l.isLeaf_toValue hfield hop)]
    rfl
  | group c rules =>
    obtain _ | h := h
    have hgroup := isGroup_toValue c rules
    rw [readEntry, if_pos hgroup.hasRules, readGroup_of_isGroup hgroup,
      readEntries_toValues h path 0]
    rfl

theorem readEntries_toValues {rules : List Rule} (h : ∀ r ∈ rules, r.WellNamed) (path : Path)
    (index : Nat) : readEntries path index (toValues rules) = .ok rules := by
  cases rules with
  | nil => rw [toValues, readEntries]
  | cons r rules =>
    obtain ⟨hr, hrules⟩ := List.forall_mem_cons.mp h
    rw [toValues, readEntries, readEntry_toValue hr, readEntries_toValues hrules]
    rfl

end

mutual

theorem wellNamed_of_readGroup {path : Path} {v : Value} {g : RuleGroup}
    (h : readGroup path v = .ok g) : ∀ r ∈ g.rules, r.WellNamed := by
  obtain ⟨items, hgroup, hrules⟩ := isGroup_of_readGroup h
  exact wellNamed_of_readEntries hrules
termination_by 2 * sizeOf v
decreasing_by
  have := hgroup.sizeOf_lt
  omega

theorem wellNamed_of_readEntry {path : Path} {v : Value} {r : Rule}
    (h : readEntry path v = .ok r) : r.WellNamed := by
  rw [readEntry] at h
  split at h
  · obtain ⟨g, hg, h⟩ := Expr.bind_eq_ok h
    cases h
    exact .group (wellNamed_of_readGroup hg)
  · obtain ⟨l, hl, h⟩ := Expr.bind_eq_ok h
    cases h
    obtain ⟨-, hfield, ⟨s, -, hop⟩, -⟩ := (checks_readLeaf path v).of_ok hl
    exact .leaf hfield (by rw [← hop, RuleOp.ofName_name])
termination_by 2 * sizeOf v + 1

theorem wellNamed_of_readEntries {path : Path} {index : Nat} {items : List Value}
    {rules : List Rule} (h : readEntries path index items = .ok rules) :
    ∀ r ∈ rules, r.WellNamed := by
  cases items with
  | nil =>
    rw [readEntries] at h
    cases h
    simp
  | cons v items =>
    rw [readEntries] at h
    obtain ⟨r, hr, h⟩ := Expr.bind_eq_ok h
    obtain ⟨rules, hrules, h⟩ := Expr.bind_eq_ok h
    cases h
    exact List.forall_mem_cons.mpr ⟨wellNamed_of_readEntry hr, wellNamed_of_readEntries hrules⟩
termination_by 2 * sizeOf items

end

end Rule

namespace RuleGroup

/-- What is read from a document is written as a document that is read as the same, so that
writing what is read changes nothing the second time. -/
theorem ofValue_toValue {v : Value} {g : RuleGroup} (h : ofValue v = .ok g) :
    ofValue g.toValue = .ok g ∧ (ofValue g.toValue).map toValue = .ok g.toValue := by
  have hread : ofValue g.toValue = .ok g := by
    have hgroup := Rule.isGroup_toValue g.connective g.rules
    rw [ofValue, toValue, toRule, Rule.readGroup_of_isGroup hgroup,
      Rule.readEntries_toValues (Rule.wellNamed_of_readGroup h)]
    rfl
  exact ⟨hread, by rw [hread]; rfl⟩

/-- A document with what reading leaves out: a widget, a connective in small letters, and a
comparison that has a member `rules`. -/
def widgets : Value :=
  .object [("condition", .string "or"), ("rules", .array [
    .object [("field", .string "a"), ("operator", .string "like"), ("rules", .null), ("value", .null)],
    .object [("condition", .string "And"), ("rules", .array [])]]), ("valid", .bool true)]

theorem ofValue_toValue_widgets :
    ∃ g, ofValue widgets = .ok g ∧ ofValue g.toValue = .ok g ∧
      (ofValue g.toValue).map toValue = .ok g.toValue := by
  have hread : (ofValue widgets).toOption =
      some ⟨.or, [.leaf ⟨"a", .custom "like", .null⟩, .group .and []]⟩ := by
    decide +kernel
  cases h : ofValue widgets with
  | error e =>
    rw [h] at hread
    cases hread
  | ok g => exact ⟨g, rfl, ofValue_toValue h⟩

end RuleGroup

end Criteria
