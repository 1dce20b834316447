import Criteria.Json.Reader

/-!
# The keys of objects

An object is an association list, which alone could have its keys in any order and some of them
twice. Records are built entry by entry, and insertion keeps their keys in increasing order, so
that no value that is read from JSON text has a key twice, at any depth.
-/

namespace Criteria

/-- The keys of every object inside a value increase. -/
inductive Value.InOrder : Value → Prop
  | scalar {v : Value} : v.isScalar = true → InOrder v
  | array {items : List Value} : (∀ v ∈ items, InOrder v) → InOrder (.array items)
  | object {entries : Record} : entries.Pairwise (·.1 < ·.1) → (∀ e ∈ entries, InOrder e.2) →
      InOrder (.object entries)

namespace Record

/-- The keys of a record increase, and so do those inside its values. -/
structure InOrder (r : Record) : Prop where
  keys : r.Pairwise (·.1 < ·.1)
  values : ∀ e ∈ r, e.2.InOrder

theorem inOrder_nil : InOrder [] := ⟨List.Pairwise.nil, nofun⟩

theorem nodup_of_pairwise {r : Record} (h : r.Pairwise (·.1 < ·.1)) : (r.map Prod.fst).Nodup := by
  rw [List.nodup_iff_pairwise_ne, List.pairwise_map]
  exact h.imp Std.ne_of_lt

theorem mem_of_mem_insert {key : String} {value : Value} {r : Record} {e : String × Value}
    (h : e ∈ r.insert key value) : e = (key, value) ∨ e ∈ r := by
  induction r with
  | nil => exact .inl (List.mem_singleton.mp h)
  | cons f rest ih =>
    obtain ⟨k, v⟩ := f
    rw [insert] at h
    split at h
    · exact List.mem_cons.mp h
    split at h
    · exact (List.mem_cons.mp h).imp_right (List.mem_cons_of_mem _)
    · rcases List.mem_cons.mp h with rfl | h
      · exact .inr List.mem_cons_self
      · exact (ih h).imp_right (List.mem_cons_of_mem _)

theorem pairwise_insert {key : String} {value : Value} {r : Record}
    (h : r.Pairwise (·.1 < ·.1)) : (r.insert key value).Pairwise (·.1 < ·.1) := by
  induction r with
  | nil => exact List.pairwise_singleton _ _
  | cons f rest ih =>
    obtain ⟨k, v⟩ := f
    obtain ⟨hfirst, hrest⟩ := List.pairwise_cons.mp h
    rw [insert]
    split
    · next hlt =>
      refine List.pairwise_cons.mpr ⟨fun e he => ?_, h⟩
      rcases List.mem_cons.mp he with rfl | he
      · exact hlt
      · exact String.lt_trans hlt (hfirst e he)
    split
    · next heq => exact List.pairwise_cons.mpr ⟨heq ▸ hfirst, hrest⟩
    · next hnot hne =>
      refine List.pairwise_cons.mpr ⟨fun e he => ?_, ih hrest⟩
      rcases mem_of_mem_insert he with rfl | he
      · exact Std.lt_of_le_of_ne (String.not_lt.mp hnot) (Ne.symm hne)
      · exact hfirst e he

/-- Insertion keeps the keys in order. -/
theorem InOrder.insert {r : Record} (h : r.InOrder) (key : String) {value : Value}
    (hvalue : value.InOrder) : (r.insert key value).InOrder where
  keys := pairwise_insert h.keys
  values := by
    intro e he
    rcases mem_of_mem_insert he with rfl | he
    · exact hvalue
    · exact h.values e he

end Record

namespace Json

/-- The outcome of a reader, if it has one, has a property. -/
def Yields {α : Type} (P : α → Prop) (x : Except Fault α) : Prop := ∀ a, x = .ok a → P a

namespace Yields

variable {α β : Type} {P : α → Prop} {Q : β → Prop}

theorem ok {a : α} (h : P a) : Yields P (.ok a) := by
  rintro _ ⟨⟩
  exact h

theorem error (e : Fault) : Yields P (.error e) := nofun

theorem bind {x : Except Fault α} {f : α → Except Fault β} (hx : Yields P x)
    (hf : ∀ a, P a → Yields Q (f a)) : Yields Q (x >>= f) := by
  cases x with
  | error e => exact error e
  | ok a => exact hf a (hx a rfl)

end Yields

theorem length_lt_of_skip {cs rest : List Char} {c : Char} (h : skip cs = c :: rest) :
    rest.length < cs.length := by
  have hskip := length_skip cs
  rw [h] at hskip
  exact hskip

theorem yields_wordValue (v : Value) (expected cs : List Char) :
    Yields (·.value = v) (wordValue v expected cs) := by
  unfold wordValue
  split
  · exact .ok rfl
  · exact .error _

/-- What is read and needs no further look. -/
theorem Yields.any {α : Type} (x : Except Fault α) : Yields (fun _ => True) x := fun _ _ => trivial

mutual

theorem inOrder_value (room : Nat) (cs : List Char) :
    Yields (·.value.InOrder) (value room cs) := by
  have hword {v : Value} (hv : v.isScalar = true) {expected rest : List Char} {n : Nat}
      (hn : rest.length + 1 ≤ n) :
      Yields (·.value.InOrder) (do return (← wordValue v expected rest).widen hn) := by
    refine (yields_wordValue v expected rest).bind fun t ht => .ok ?_
    exact ht ▸ .scalar hv
  unfold value
  split
  · exact .error _
  · next c rest hskip =>
    have hr := length_lt_of_skip hskip
    dsimp only
    split
    · exact hword rfl _
    split
    · exact hword rfl _
    split
    · exact hword rfl _
    split
    · exact (Yields.any _).bind fun t _ => .ok (.scalar rfl)
    split
    · cases room with
      | zero => exact .error _
      | succ room =>
        exact (inOrder_items room true rest).bind fun t ht => .ok (.array ht)
    split
    · cases room with
      | zero => exact .error _
      | succ room =>
        exact (inOrder_members room true [] rest Record.inOrder_nil).bind fun t ht =>
          .ok (.object ht.keys ht.values)
    split
    · exact (Yields.any _).bind fun t _ => .ok (.scalar rfl)
    · exact .error _
termination_by 3 * cs.length

theorem inOrder_items (room : Nat) (first : Bool) (cs : List Char) :
    Yields (fun t => ∀ v ∈ t.value, v.InOrder) (items room first cs) := by
  unfold items
  split
  · exact .error _
  · next c rest hskip =>
    have hr := length_lt_of_skip hskip
    dsimp only
    split
    · exact .ok nofun
    split
    · refine (inOrder_value room cs).bind fun ⟨v, rest, h₁⟩ hv => ?_
      exact (inOrder_items room false rest).bind fun t ht => .ok (List.forall_mem_cons.mpr ⟨hv, ht⟩)
    split
    · split
      · exact .error _
      · split
        · exact .error _
        · refine (inOrder_value room rest).bind fun ⟨v, rest, h₁⟩ hv => ?_
          exact (inOrder_items room false rest).bind fun t ht =>
            .ok (List.forall_mem_cons.mpr ⟨hv, ht⟩)
    · exact .error _
termination_by 3 * cs.length + 1

theorem inOrder_members (room : Nat) (first : Bool) (done : Record) (cs : List Char)
    (hdone : done.InOrder) : Yields (·.value.InOrder) (members room first done cs) := by
  unfold members
  split
  · exact .error _
  · next c rest hskip =>
    have hr := length_lt_of_skip hskip
    dsimp only
    split
    · exact .ok hdone
    split
    · exact inOrder_member room done cs hdone
    split
    · split
      · exact .error _
      · split
        · exact .error _
        · exact (inOrder_member room done rest hdone).bind fun t ht => .ok ht
    · exact .error _
termination_by 3 * cs.length + 2

theorem inOrder_member (room : Nat) (done : Record) (cs : List Char) (hdone : done.InOrder) :
    Yields (·.value.InOrder) (member room done cs) := by
  unfold member
  split
  · next rest hskip =>
    have hr := length_lt_of_skip hskip
    dsimp only
    refine (Yields.any _).bind fun ⟨key, rest, h₁⟩ _ => ?_
    dsimp only
    split
    · next rest' hcolon =>
      have hc := length_lt_of_skip hcolon
      refine (inOrder_value room rest').bind fun ⟨v, rest, h₃⟩ hv => ?_
      exact (inOrder_members room false _ rest (hdone.insert _ hv)).bind fun t ht => .ok ht
    · exact .error _
  · exact .error _
termination_by 3 * cs.length + 1

end

/-- No value that is read from JSON text has a key twice. -/
theorem inOrder_of_read {text : String} {v : Value} (h : read text = .ok v) : v.InOrder := by
  unfold read at h
  split at h
  · cases h
  · next t ht =>
    split at h
    · cases h
      exact inOrder_value _ _ t ht
    · cases h

end Json

end Criteria
