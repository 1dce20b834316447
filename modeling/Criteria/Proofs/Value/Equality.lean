import Mathlib.Data.List.Forall2
import Mathlib.Data.List.Perm.Subperm
import Criteria.Proofs.Value.Keys
import Criteria.Proofs.Value.Order

/-!
# The two equalities

Strict equality is an equivalence, and loose equality is reflexive, symmetric and no finer. Loose
equality is not transitive: null equals an empty string as well as zero, which are not equal.

Objects are compared from the left, key by key, and by the number of their entries. Since no object
has a key twice, this is the same from the right.
-/

namespace Criteria

/-! ## Lists with related members -/

section

variable {R S T : Value → Value → Prop} {xs ys zs : List Value}

theorem forall₂_imp_of_mem (h : List.Forall₂ R xs ys) (hRS : ∀ x ∈ xs, ∀ y, R x y → S x y) :
    List.Forall₂ S xs ys := by
  have hboth := (List.forall₂_and_left xs ys).mpr ⟨hRS, h⟩
  exact hboth.imp fun x y ⟨hx, hxy⟩ => hx y hxy

theorem forall₂_symm_of_mem (h : List.Forall₂ R xs ys) (hRS : ∀ x ∈ xs, ∀ y, R x y → S y x) :
    List.Forall₂ S ys xs :=
  (forall₂_imp_of_mem (S := flip S) h hRS).flip

theorem forall₂_trans_of_mem (h : List.Forall₂ R xs ys) (h' : List.Forall₂ S ys zs)
    (hRST : ∀ x ∈ xs, ∀ y z, R x y → S y z → T x z) : List.Forall₂ T xs zs := by
  induction h generalizing zs with
  | nil =>
    cases h'
    exact .nil
  | @cons x y xs ys hxy _ ih =>
    cases h' with
    | @cons _ z _ zs hyz hyzs =>
      obtain ⟨hx, hxs⟩ := List.forall_mem_cons.mp hRST
      exact .cons (hx y z hxy hyz) (ih hyzs hxs)

end

/-! ## Records with the same keys -/

namespace Record

/-- As many entries on the right as on the left, and for each one on the left a related one under
its key. -/
structure Matched (R : Value → Value → Prop) (xs ys : Record) : Prop where
  length : xs.length = ys.length
  found : ∀ e ∈ xs, ∃ y, ys.lookup e.1 = some y ∧ R e.2 y

theorem mem_of_lookup {r : Record} {key : String} {v : Value} (h : r.lookup key = some v) :
    (key, v) ∈ r := by
  obtain ⟨before, after, rfl, -⟩ := List.lookup_eq_some_iff.mp h
  simp

theorem lookup_of_mem {r : Record} (h : (r.map Prod.fst).Nodup) {e : String × Value}
    (he : e ∈ r) : r.lookup e.1 = some e.2 := by
  induction r with
  | nil => cases he
  | cons f rest ih =>
    obtain ⟨hnot, hrest⟩ := List.nodup_cons.mp h
    rcases List.mem_cons.mp he with rfl | he
    · exact List.lookup_cons_self
    · have hne : (e.1 == f.1) = false := by
        rw [beq_eq_false_iff_ne]
        intro heq
        exact hnot (heq ▸ List.mem_map_of_mem he)
      rw [List.lookup_cons, hne]
      exact ih hrest he

namespace Matched

variable {R S T : Value → Value → Prop} {xs ys zs : Record}

theorem refl (hkeys : (xs.map Prod.fst).Nodup) (h : ∀ e ∈ xs, R e.2 e.2) : Matched R xs xs where
  length := rfl
  found e he := ⟨e.2, lookup_of_mem hkeys he, h e he⟩

theorem imp (h : Matched R xs ys) (hRS : ∀ e ∈ xs, ∀ y, R e.2 y → S e.2 y) : Matched S xs ys where
  length := h.length
  found := by
    intro e he
    obtain ⟨y, hy, hR⟩ := h.found e he
    exact ⟨y, hy, hRS e he y hR⟩

theorem trans (h : Matched R xs ys) (h' : Matched S ys zs)
    (hRST : ∀ e ∈ xs, ∀ y z, R e.2 y → S y z → T e.2 z) : Matched T xs zs where
  length := h.length.trans h'.length
  found := by
    intro e he
    obtain ⟨y, hy, hR⟩ := h.found e he
    obtain ⟨z, hz, hS⟩ := h'.found (e.1, y) (mem_of_lookup hy)
    exact ⟨z, hz, hRST e he y z hR hS⟩

/-- The keys on the right are those on the left, in some order. -/
theorem perm (h : Matched R xs ys) (hkeys : (xs.map Prod.fst).Nodup) :
    (xs.map Prod.fst).Perm (ys.map Prod.fst) := by
  have hsubset : xs.map Prod.fst ⊆ ys.map Prod.fst := by
    intro key hkey
    obtain ⟨e, he, rfl⟩ := List.mem_map.mp hkey
    obtain ⟨y, hy, -⟩ := h.found e he
    exact List.mem_map.mpr ⟨(e.1, y), mem_of_lookup hy, rfl⟩
  refine (hkeys.subperm hsubset).perm_of_length_le ?_
  simp [h.length]

theorem symm (h : Matched R xs ys) (hkeys : (xs.map Prod.fst).Nodup)
    (hRS : ∀ e ∈ xs, ∀ y, R e.2 y → S y e.2) : Matched S ys xs where
  length := h.length.symm
  found := by
    intro e he
    have hperm := h.perm hkeys
    obtain ⟨f, hf, hkey⟩ := List.mem_map.mp (hperm.mem_iff.mpr (List.mem_map_of_mem he))
    obtain ⟨y, hy, hR⟩ := h.found f hf
    -- The entry of this key on the right is the one that the search from the left has found.
    have hy' : y = e.2 := by
      rw [hkey, lookup_of_mem (hperm.nodup_iff.mp hkeys) he] at hy
      exact (Option.some.inj hy).symm
    refine ⟨f.2, hkey ▸ lookup_of_mem hkeys hf, ?_⟩
    exact hy' ▸ hRS f hf y hR

end Matched

end Record

/-! ## Strict equality -/

/-- What strict equality sees of a number: whether it is an integer, and its size. -/
def Number.mark : Number → Bool × Int
  | .int n _ _ => (true, n)
  | .float x _ => (false, x.key)

namespace Value

theorem numberEq_iff (m n : Number) : numberEq m n = true ↔ m.mark = n.mark := by
  cases m with
  | int m _ _ => cases n <;> simp [numberEq, Number.mark]
  | float x hx =>
    cases n with
    | int n _ _ => simp [numberEq, Number.mark]
    | float y hy =>
      have hcompare := Binary64.compare?_of_not_isNaN (Binary64.isNaN_of_isFinite hx)
        (Binary64.isNaN_of_isFinite hy)
      simp [numberEq, Number.mark, hcompare]

theorem strictEqItems_iff (xs ys : List Value) :
    strictEqItems xs ys = true ↔ List.Forall₂ (fun x y => x.strictEq y = true) xs ys := by
  induction xs generalizing ys with
  | nil => cases ys <;> simp [strictEqItems]
  | cons x xs ih => cases ys <;> simp [strictEqItems, ih]

theorem strictEqEntries_iff (xs ys : Record) :
    strictEqEntries xs ys = true ↔
      ∀ e ∈ xs, ∃ y, ys.lookup e.1 = some y ∧ e.2.strictEq y = true := by
  induction xs with
  | nil => simp [strictEqEntries]
  | cons e xs ih =>
    obtain ⟨k, x⟩ := e
    rw [strictEqEntries, Bool.and_eq_true, ih, List.forall_mem_cons]
    cases ys.lookup k <;> simp

/-- One level of strict equality, with `R` for what is inside of arrays and objects. -/
inductive Alike (R : Value → Value → Prop) : Value → Value → Prop
  | null : Alike R .null .null
  | bool (b : Bool) : Alike R (.bool b) (.bool b)
  | number {m n : Number} : m.mark = n.mark → Alike R (.number m) (.number n)
  | string (s : String) : Alike R (.string s) (.string s)
  | array {xs ys : List Value} : List.Forall₂ R xs ys → Alike R (.array xs) (.array ys)
  | object {xs ys : Record} : Record.Matched R xs ys → Alike R (.object xs) (.object ys)

theorem strictEq_iff {a b : Value} :
    a.strictEq b = true ↔ Alike (fun x y => x.strictEq y = true) a b := by
  constructor
  · intro h
    unfold strictEq at h
    split at h
    · exact .null
    · exact eq_of_beq h ▸ .bool _
    · exact .number ((numberEq_iff _ _).mp h)
    · exact eq_of_beq h ▸ .string _
    · exact .array ((strictEqItems_iff _ _).mp h)
    · obtain ⟨hlength, hfound⟩ := Bool.and_eq_true_iff.mp h
      exact .object ⟨eq_of_beq hlength, (strictEqEntries_iff _ _).mp hfound⟩
    · cases h
  · intro h
    cases h with
    | null => rfl
    | bool b => exact beq_self_eq_true b
    | number hmark => exact (numberEq_iff _ _).mpr hmark
    | string s => exact beq_self_eq_true s
    | array hitems => exact (strictEqItems_iff _ _).mpr hitems
    | object hentries =>
      rw [strictEq, hentries.length, beq_self_eq_true, Bool.true_and]
      exact (strictEqEntries_iff _ _).mpr hentries.found

theorem strictEq_refl {a : Value} (ha : a.InOrder) : a.strictEq a = true := by
  rw [strictEq_iff]
  induction ha with
  | @scalar a ha =>
    cases a with
    | null => exact .null
    | bool b => exact .bool b
    | number n => exact .number rfl
    | string s => exact .string s
    | _ => cases ha
  | array _ ih => exact .array (List.forall₂_same.mpr fun v hv => strictEq_iff.mpr (ih v hv))
  | object hkeys _ ih =>
    exact .object (.refl (Record.nodup_of_pairwise hkeys) fun e he => strictEq_iff.mpr (ih e he))

theorem strictEq_symm {a b : Value} (ha : a.InOrder) (h : a.strictEq b = true) :
    b.strictEq a = true := by
  rw [strictEq_iff] at h ⊢
  induction ha generalizing b with
  | scalar ha =>
    cases h with
    | null => exact .null
    | bool b => exact .bool b
    | number hmark => exact .number hmark.symm
    | string s => exact .string s
    | _ => cases ha
  | array _ ih =>
    cases h with
    | array hitems =>
      refine .array (forall₂_symm_of_mem hitems fun x hx y hy => ?_)
      exact strictEq_iff.mpr (ih x hx (strictEq_iff.mp hy))
  | object hkeys _ ih =>
    cases h with
    | object hentries =>
      refine .object (hentries.symm (Record.nodup_of_pairwise hkeys) fun e he y hy => ?_)
      exact strictEq_iff.mpr (ih e he (strictEq_iff.mp hy))

theorem strictEq_trans {a b c : Value} (ha : a.InOrder) (h : a.strictEq b = true)
    (h' : b.strictEq c = true) : a.strictEq c = true := by
  rw [strictEq_iff] at h h' ⊢
  induction ha generalizing b c with
  | scalar ha =>
    cases h with
    | null => exact h'
    | bool b => exact h'
    | number hmark =>
      cases h' with
      | number hmark' => exact .number (hmark.trans hmark')
    | string s => exact h'
    | _ => cases ha
  | array _ ih =>
    cases h with
    | array hitems =>
      cases h' with
      | array hitems' =>
        refine .array (forall₂_trans_of_mem hitems hitems' fun x hx y z hy hz => ?_)
        exact strictEq_iff.mpr (ih x hx (strictEq_iff.mp hy) (strictEq_iff.mp hz))
  | object hkeys _ ih =>
    cases h with
    | object hentries =>
      cases h' with
      | object hentries' =>
        refine .object (hentries.trans hentries' fun e he y z hy hz => ?_)
        exact strictEq_iff.mpr (ih e he (strictEq_iff.mp hy) (strictEq_iff.mp hz))

/-! ## Loose equality -/

theorem looseEqItems_iff (xs ys : List Value) :
    looseEqItems xs ys = true ↔ List.Forall₂ (fun x y => x.looseEq y = true) xs ys := by
  induction xs generalizing ys with
  | nil => cases ys <;> simp [looseEqItems]
  | cons x xs ih => cases ys <;> simp [looseEqItems, ih]

theorem looseEqEntries_iff (xs ys : Record) :
    looseEqEntries xs ys = true ↔
      ∀ e ∈ xs, ∃ y, ys.lookup e.1 = some y ∧ e.2.looseEq y = true := by
  induction xs with
  | nil => simp [looseEqEntries]
  | cons e xs ih =>
    obtain ⟨k, x⟩ := e
    rw [looseEqEntries, Bool.and_eq_true, ih, List.forall_mem_cons]
    cases ys.lookup k <;> simp

theorem looseEq_array (xs ys : List Value) : (Value.array xs).looseEq (.array ys) = true ↔
    List.Forall₂ (fun x y => x.looseEq y = true) xs ys :=
  looseEqItems_iff xs ys

theorem looseEq_object (xs ys : Record) : (Value.object xs).looseEq (.object ys) = true ↔
    Record.Matched (fun x y => x.looseEq y = true) xs ys := by
  rw [looseEq, Bool.and_eq_true, beq_iff_eq, looseEqEntries_iff]
  constructor
  · intro h
    exact ⟨h.1, h.2⟩
  · intro h
    exact ⟨h.length, h.found⟩

theorem stringEq_comm (s t : String) : stringEq s t = stringEq t s := by
  unfold stringEq
  cases Numeric.ofText? s <;> cases Numeric.ofText? t <;> simp [numericEq_comm, Bool.beq_comm]

theorem looseEq_comm_of_isScalar {a : Value} (ha : a.isScalar = true) (b : Value) :
    a.looseEq b = b.looseEq a := by
  cases a with
  | null => cases b <;> rfl
  | bool p =>
    cases b with
    | bool q => exact Bool.beq_comm
    | _ => rfl
  | number m =>
    cases b with
    | number n => exact numericEq_comm _ _
    | _ => rfl
  | string s =>
    cases b with
    | string t => exact stringEq_comm s t
    | _ => rfl
  | _ => cases ha

theorem looseEq_self_of_isScalar {a : Value} (ha : a.isScalar = true) : a.looseEq a = true := by
  cases a with
  | null => rfl
  | bool b => exact beq_self_eq_true b
  | number n => exact looseEq_of_compare? (compare?_number_self n)
  | string s => exact looseEq_of_compare? (compare?_string_self s)
  | _ => cases ha

theorem looseEq_refl {a : Value} (ha : a.InOrder) : a.looseEq a = true := by
  induction ha with
  | scalar ha => exact looseEq_self_of_isScalar ha
  | @array items _ ih => exact (looseEq_array items items).mpr (List.forall₂_same.mpr ih)
  | @object entries hkeys _ ih =>
    exact (looseEq_object entries entries).mpr (.refl (Record.nodup_of_pairwise hkeys) ih)

theorem looseEq_symm {a b : Value} (ha : a.InOrder) (h : a.looseEq b = true) :
    b.looseEq a = true := by
  induction ha generalizing b with
  | scalar ha => rwa [← looseEq_comm_of_isScalar ha b]
  | @array xs _ ih =>
    cases b with
    | array ys =>
      rw [looseEq_array] at h ⊢
      exact forall₂_symm_of_mem h fun x hx y hy => ih x hx hy
    | object ys => cases h
    | _ => rwa [looseEq_comm_of_isScalar rfl]
  | @object xs hkeys _ ih =>
    cases b with
    | object ys =>
      rw [looseEq_object] at h ⊢
      exact h.symm (Record.nodup_of_pairwise hkeys) fun e he y hy => ih e he hy
    | array ys => cases h
    | _ => rwa [looseEq_comm_of_isScalar rfl]

theorem looseEq_of_mark {m n : Number} (h : m.mark = n.mark) :
    (Value.number m).looseEq (.number n) = true := by
  apply looseEq_of_compare? (o := .eq)
  cases m with
  | int m lower upper =>
    cases n with
    | int n _ _ =>
      obtain rfl : m = n := congrArg Prod.snd h
      exact compare?_number_self _
    | float y hy => cases h
  | float x hx =>
    cases n with
    | int n _ _ => cases h
    | float y hy =>
      have hkey : x.key = y.key := congrArg Prod.snd h
      exact Binary64.compare?_eq (Binary64.isNaN_of_isFinite hx) (Binary64.isNaN_of_isFinite hy)
        hkey

theorem looseEq_of_strictEq {a b : Value} (ha : a.InOrder) (h : a.strictEq b = true) :
    a.looseEq b = true := by
  rw [strictEq_iff] at h
  induction ha generalizing b with
  | scalar ha =>
    cases h with
    | null => rfl
    | bool b => exact beq_self_eq_true b
    | number hmark => exact looseEq_of_mark hmark
    | string s => exact looseEq_self_of_isScalar ha
    | _ => cases ha
  | array _ ih =>
    cases h with
    | array hitems =>
      rw [looseEq_array]
      exact forall₂_imp_of_mem hitems fun x hx y hy => ih x hx (strictEq_iff.mp hy)
  | object _ _ ih =>
    cases h with
    | object hentries =>
      rw [looseEq_object]
      exact hentries.imp fun e he y hy => ih e he (strictEq_iff.mp hy)

/-- Strict equality is an equivalence, loose equality is reflexive and symmetric, and values that
are strictly equal are loosely equal. -/
theorem strictEq_looseEq_laws {a b c : Value} (ha : a.InOrder) (hb : b.InOrder) :
    (a.strictEq a = true ∧ a.strictEq b = b.strictEq a ∧
      (a.strictEq b = true → b.strictEq c = true → a.strictEq c = true)) ∧
    (a.looseEq a = true ∧ a.looseEq b = b.looseEq a) ∧
    (a.strictEq b = true → a.looseEq b = true) := by
  refine ⟨⟨strictEq_refl ha, ?_, strictEq_trans ha⟩, ⟨looseEq_refl ha, ?_⟩, looseEq_of_strictEq ha⟩
  · exact Bool.eq_iff_iff.mpr ⟨strictEq_symm ha, strictEq_symm hb⟩
  · exact Bool.eq_iff_iff.mpr ⟨looseEq_symm ha, looseEq_symm hb⟩

/-- Loose equality has no third law. -/
example : looseEq (.string "") .null = true ∧ looseEq .null (.ofInt 0) = true ∧
    looseEq (.string "") (.ofInt 0) = false := by
  decide

/-- A zero inside of an array inside of an object. -/
def nestedZero (negative : Bool) : Value :=
  .object [("zero", .array [.number (.float (.zero negative) (by cases negative <;> decide))])]

theorem inOrder_nestedZero (negative : Bool) : (nestedZero negative).InOrder := by
  apply InOrder.object
  · exact List.pairwise_singleton _ _
  · rw [List.forall_mem_singleton]
    exact .array (List.forall_mem_singleton.mpr (.scalar rfl))

/-- The two zeros are different values, which no equality tells apart. -/
theorem strictEq_looseEq_laws_nestedZero :
    nestedZero true ≠ nestedZero false ∧
      (nestedZero true).strictEq (nestedZero false) = true ∧
      (nestedZero false).strictEq (nestedZero true) = true ∧
      (nestedZero false).looseEq (nestedZero true) = true := by
  obtain ⟨⟨-, hstrict, -⟩, ⟨-, hloose⟩, himplies⟩ :=
    strictEq_looseEq_laws (c := nestedZero true) (inOrder_nestedZero true)
      (inOrder_nestedZero false)
  have hzeros : (nestedZero true).strictEq (nestedZero false) = true := by decide
  constructor
  · simp [nestedZero, Binary64.zero]
  · exact ⟨hzeros, hstrict ▸ hzeros, hloose ▸ himplies hzeros⟩

end Value

end Criteria
