import Criteria.Expr.Basic

/-!
# The cache of read expressions

A cache keeps expressions under their source text. It has room for a number of them
and refuses texts beyond a length; when it is full, a new text empties it first. One
form of cache keeps nothing.
-/

namespace Criteria

/-- An expression together with the text it was read from. -/
structure Parsed where
  source : String
  root : Expr

/-- How many expressions a cache keeps, and how long their texts may be in bytes. -/
structure Cache.Limits where
  capacity : Nat
  maxLength : Nat
  deriving DecidableEq, Repr

inductive Cache where
  | disabled
  | memory (limits : Cache.Limits) (entries : List (String × Parsed))

namespace Cache

def defaultCapacity : Nat := 1024

def defaultMaxLength : Nat := 4096

/-- An empty cache with room for at least one expression. -/
def withCapacity (capacity : Nat) : Cache :=
  .memory ⟨max capacity 1, defaultMaxLength⟩ []

/-- The cache with another bound on the length of texts. -/
def withMaxLength (cache : Cache) (maxLength : Nat) : Cache :=
  match cache with
  | disabled => disabled
  | memory limits entries => memory { limits with maxLength } entries

/-- The cache that a language has unless told otherwise. -/
def standard : Cache := withCapacity defaultCapacity

def limits? : Cache → Option Limits
  | disabled => none
  | memory limits _ => some limits

def size : Cache → Nat
  | disabled => 0
  | memory _ entries => entries.length

def get? (cache : Cache) (source : String) : Option Parsed :=
  match cache with
  | disabled => none
  | memory _ entries => entries.lookup source

/-- The entries with `parsed` in place of what is under `source`. -/
def replace (source : String) (parsed : Parsed) (entries : List (String × Parsed)) :
    List (String × Parsed) :=
  entries.map fun e => if e.1 == source then (source, parsed) else e

/-- The cache with `parsed` under `source`, if it admits the text. -/
def insert (cache : Cache) (source : String) (parsed : Parsed) : Cache :=
  match cache with
  | disabled => disabled
  | memory limits entries =>
    if limits.maxLength < source.utf8ByteSize then cache
    else if (entries.lookup source).isSome then
      memory limits (replace source parsed entries)
    else if limits.capacity ≤ entries.length then memory limits [(source, parsed)]
    else memory limits (entries ++ [(source, parsed)])

def clear : Cache → Cache
  | disabled => disabled
  | memory limits _ => memory limits []

theorem lookup_cons (key : String) (kept : Parsed) (entries : List (String × Parsed))
    (source : String) :
    ((key, kept) :: entries).lookup source =
      if source = key then some kept else entries.lookup source := by
  by_cases h : source = key
  · simp [h]
  · have hne : (source == key) = false := by simpa using h
    simp [List.lookup_cons, hne, h]

/-- Replacement changes what is found under its key, if something was, and nothing else. -/
theorem lookup_replace (source : String) (parsed : Parsed) (entries : List (String × Parsed))
    (key : String) :
    (replace source parsed entries).lookup key =
      if key = source then (entries.lookup source).map fun _ => parsed
      else entries.lookup key := by
  induction entries with
  | nil => simp [replace]
  | cons e entries ih =>
    obtain ⟨k, kept⟩ := e
    rw [replace] at ih ⊢
    by_cases hk : k = source
    · subst hk
      simp only [List.map_cons, beq_self_eq_true, if_true, lookup_cons, ih]
      by_cases hkey : key = k <;> simp [hkey]
    · have hne : (k == source) = false := by simpa using hk
      simp only [List.map_cons, hne, Bool.false_eq_true, if_false, lookup_cons, ih,
        if_neg (Ne.symm hk)]
      by_cases hkey : key = source
      · rw [if_pos hkey, if_neg (hkey ▸ Ne.symm hk), if_pos hkey]
      · rw [if_neg hkey, if_neg hkey]

/-- What is found after an insertion was inserted or was there before. -/
theorem get?_insert {cache : Cache} {source : String} {parsed : Parsed} {s : String}
    {found : Parsed} (h : (cache.insert source parsed).get? s = some found) :
    (s = source ∧ found = parsed) ∨ cache.get? s = some found := by
  have hsingle : ∀ {p : Parsed}, [(source, parsed)].lookup s = some p → s = source ∧ p = parsed := by
    intro p hp
    rw [lookup_cons] at hp
    split at hp
    · next hs =>
      cases hp
      exact ⟨hs, rfl⟩
    · cases hp
  cases cache with
  | disabled => cases h
  | memory limits entries =>
    simp only [insert] at h
    split at h
    · exact .inr h
    · split at h
      · have hfound : (replace source parsed entries).lookup s = some found := h
        rw [lookup_replace] at hfound
        split at hfound
        · next hs =>
          obtain ⟨_, -, rfl⟩ := Option.map_eq_some_iff.mp hfound
          exact .inl ⟨hs, rfl⟩
        · exact .inr hfound
      · split at h
        · exact .inl (hsingle h)
        · simp only [get?, List.lookup_append, Option.or_eq_some_iff] at h ⊢
          rcases h with h | ⟨-, h⟩
          · exact .inr h
          · exact .inl (hsingle h)

end Cache

end Criteria
