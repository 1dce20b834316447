import Mathlib.Data.List.Induction
import Mathlib.Data.List.Nodup
import Criteria.Language.Cache

/-!
# What a cache keeps

A cache takes insertions and is cleared, in any order. Whatever came before, it has no more entries
than it has room for and no key that is too long, and it finds under a key only what was inserted
there last. One insertion goes one of four ways: the key is refused, the entry under it is replaced,
all others make room for it, or it is put beside them.

That a key is found is claimed only right behind its insertion, as any later one may empty the cache.
-/

namespace Criteria.Cache

variable {limits : Limits} {entries : List (String × Parsed)} {source key : String}
  {parsed found : Parsed}

/-! ## Entries -/

@[simp] theorem length_replace (source : String) (parsed : Parsed)
    (entries : List (String × Parsed)) : (replace source parsed entries).length = entries.length :=
  List.length_map _

theorem keys_replace (source : String) (parsed : Parsed) (entries : List (String × Parsed)) :
    (replace source parsed entries).map Prod.fst = entries.map Prod.fst := by
  rw [replace, List.map_map]
  refine List.map_congr_left fun e _ => ?_
  by_cases he : e.1 = source <;> simp [he]

theorem isSome_lookup_iff : (entries.lookup key).isSome ↔ key ∈ entries.map Prod.fst := by
  induction entries with
  | nil => simp
  | cons e entries ih =>
    rw [lookup_cons, List.map_cons, List.mem_cons, ← ih]
    by_cases hkey : key = e.1 <;> simp [hkey]

/-! ## One insertion -/

theorem insert_of_long (hlong : limits.maxLength < source.utf8ByteSize) :
    (memory limits entries).insert source parsed = memory limits entries :=
  if_pos hlong

section

variable (hshort : source.utf8ByteSize ≤ limits.maxLength)

include hshort

theorem insert_of_kept (hkept : (entries.lookup source).isSome) :
    (memory limits entries).insert source parsed =
      memory limits (replace source parsed entries) := by
  simp only [insert, if_neg (Nat.not_lt.mpr hshort), if_pos hkept, replace]

theorem insert_of_full (hnew : entries.lookup source = none)
    (hfull : limits.capacity ≤ entries.length) :
    (memory limits entries).insert source parsed = memory limits [(source, parsed)] := by
  simp [insert, Nat.not_lt.mpr hshort, hnew, hfull]

theorem insert_of_room (hnew : entries.lookup source = none)
    (hroom : entries.length < limits.capacity) :
    (memory limits entries).insert source parsed =
      memory limits (entries ++ [(source, parsed)]) := by
  simp [insert, Nat.not_lt.mpr hshort, hnew, Nat.not_le.mpr hroom]

/-- An admissible key is found right behind its insertion. -/
theorem get?_insert_self :
    ((memory limits entries).insert source parsed).get? source = some parsed := by
  cases hfound : entries.lookup source with
  | some kept =>
    rw [insert_of_kept hshort (hfound ▸ rfl), get?, lookup_replace, if_pos rfl, hfound]
    rfl
  | none =>
    by_cases hroom : entries.length < limits.capacity
    · rw [insert_of_room hshort hfound hroom, get?, List.lookup_append, hfound]
      simp
    · rw [insert_of_full hshort hfound (Nat.not_lt.mp hroom), get?]
      simp

end

/-! ## Whole histories -/

/-- What happens to a cache over time. -/
inductive Operation where
  | insert (source : String) (parsed : Parsed)
  | clear

def perform (cache : Cache) : Operation → Cache
  | .insert source parsed => cache.insert source parsed
  | .clear => cache.clear

/-- The cache behind operations that come one after another. -/
def after (cache : Cache) (ops : List Operation) : Cache := ops.foldl perform cache

theorem after_concat (cache : Cache) (ops : List Operation) (op : Operation) :
    cache.after (ops ++ [op]) = (cache.after ops).perform op := by
  rw [after, List.foldl_append]
  rfl

/-- The entries are within the limits, and no key has two of them. -/
structure Within (limits : Limits) (entries : List (String × Parsed)) : Prop where
  nodup : (entries.map Prod.fst).Nodup
  length_le : entries.length ≤ limits.capacity
  short : ∀ key ∈ entries.map Prod.fst, key.utf8ByteSize ≤ limits.maxLength

theorem within_nil (limits : Limits) : Within limits [] :=
  ⟨List.nodup_nil, Nat.zero_le _, List.forall_mem_nil _⟩

theorem Within.insert (hpos : 0 < limits.capacity) (h : Within limits entries) (source : String)
    (parsed : Parsed) :
    ∃ entries', (memory limits entries).insert source parsed = memory limits entries' ∧
      Within limits entries' := by
  by_cases hshort : source.utf8ByteSize ≤ limits.maxLength
  swap
  · exact ⟨_, insert_of_long (Nat.not_le.mp hshort), h⟩
  cases hfound : entries.lookup source with
  | some kept =>
    have hkeys := keys_replace source parsed entries
    have hlength := length_replace source parsed entries
    exact ⟨_, insert_of_kept hshort (hfound ▸ rfl), hkeys ▸ h.nodup, hlength ▸ h.length_le,
      hkeys ▸ h.short⟩
  | none =>
    by_cases hroom : entries.length < limits.capacity
    · have hfresh : source ∉ entries.map Prod.fst := by
        rw [← isSome_lookup_iff, hfound]
        simp
      refine ⟨_, insert_of_room hshort hfound hroom, ?_, ?_, ?_⟩
      · rw [List.map_append]
        exact h.nodup.append (List.nodup_singleton _) (by simpa using hfresh)
      · rw [List.length_append, List.length_singleton]
        exact hroom
      · rw [List.map_append]
        exact List.forall_mem_append.mpr ⟨h.short, List.forall_mem_singleton.mpr hshort⟩
    · exact ⟨_, insert_of_full hshort hfound (Nat.not_lt.mp hroom), List.nodup_singleton _, hpos,
        List.forall_mem_singleton.mpr hshort⟩

/-- Every history leaves entries within the limits. -/
theorem exists_within (hpos : 0 < limits.capacity) (ops : List Operation) :
    ∃ entries, (memory limits []).after ops = memory limits entries ∧ Within limits entries := by
  induction ops using List.reverseRecOn with
  | nil => exact ⟨[], rfl, within_nil limits⟩
  | append_singleton ops op ih =>
    obtain ⟨entries, hentries, h⟩ := ih
    rw [after_concat, hentries]
    cases op with
    | clear => exact ⟨[], rfl, within_nil limits⟩
    | insert source parsed => exact h.insert hpos source parsed

/-- The last of the operations that concerns `key` puts `parsed` under it. -/
def Latest (key : String) (parsed : Parsed) (ops : List Operation) : Prop :=
  ∃ before behind, ops = before ++ .insert key parsed :: behind ∧
    ∀ op ∈ behind, op ≠ .clear ∧ ∀ other, op ≠ .insert key other

theorem Latest.insert {ops : List Operation} (h : Latest key found ops) (hne : key ≠ source)
    (parsed : Parsed) : Latest key found (ops ++ [.insert source parsed]) := by
  obtain ⟨before, behind, rfl, hbehind⟩ := h
  refine ⟨before, behind ++ [.insert source parsed], by simp, ?_⟩
  refine List.forall_mem_append.mpr ⟨hbehind, List.forall_mem_singleton.mpr ⟨nofun, ?_⟩⟩
  rintro other ⟨⟩
  exact hne rfl

/-- What is found under a key was inserted there last. -/
theorem latest_of_get? (hpos : 0 < limits.capacity) {ops : List Operation}
    (h : ((memory limits []).after ops).get? key = some found) : Latest key found ops := by
  induction ops using List.reverseRecOn with
  | nil => cases h
  | append_singleton ops op ih =>
    obtain ⟨entries, hentries, hwithin⟩ := exists_within hpos ops
    rw [hentries] at ih
    rw [after_concat, hentries] at h
    cases op with
    | clear => cases h
    | insert source parsed =>
      rw [perform] at h
      rcases get?_insert h with ⟨rfl, rfl⟩ | hbefore
      · exact ⟨ops, [], rfl, List.forall_mem_nil _⟩
      by_cases hkey : key = source
      · -- A key that is kept is short, so that its insertion was no refusal but a replacement.
        subst hkey
        have hshort := hwithin.short key (isSome_lookup_iff.mp (Option.isSome_of_mem hbefore))
        obtain rfl : parsed = found := Option.some.inj ((get?_insert_self hshort).symm.trans h)
        exact ⟨ops, [], rfl, List.forall_mem_nil _⟩
      · exact (ih hbefore).insert hkey parsed

/-! ## What is promised -/

/-- What is promised of a cache with the given limits that `ops` have led to, and of one more
insertion into it. -/
structure Keeps (limits : Limits) (ops : List Operation) (cache : Cache) : Prop where
  /-- The size counts the keys under which something is found. -/
  keys : ∃ keys : List String, keys.Nodup ∧ keys.length = cache.size ∧
    ∀ key, key ∈ keys ↔ (cache.get? key).isSome
  size_le : cache.size ≤ limits.capacity
  short : ∀ key, (cache.get? key).isSome → key.utf8ByteSize ≤ limits.maxLength
  latest : ∀ key found, cache.get? key = some found → Latest key found ops
  admitted : ∀ key parsed, key.utf8ByteSize ≤ limits.maxLength →
    (cache.insert key parsed).get? key = some parsed
  refused : ∀ key parsed, limits.maxLength < key.utf8ByteSize → cache.insert key parsed = cache
  replaced : ∀ key parsed, (cache.get? key).isSome →
    (cache.insert key parsed).size = cache.size ∧
      ∀ other, other ≠ key → (cache.insert key parsed).get? other = cache.get? other
  alone : ∀ key parsed, key.utf8ByteSize ≤ limits.maxLength → cache.get? key = none →
    cache.size = limits.capacity →
      (cache.insert key parsed).size = 1 ∧
        ∀ other, other ≠ key → (cache.insert key parsed).get? other = none
  beside : ∀ key parsed, key.utf8ByteSize ≤ limits.maxLength → cache.get? key = none →
    cache.size < limits.capacity →
      (cache.insert key parsed).size = cache.size + 1 ∧
        ∀ other, other ≠ key → (cache.insert key parsed).get? other = cache.get? other

theorem Within.keeps (h : Within limits entries) {ops : List Operation}
    (hlatest : ∀ key found, entries.lookup key = some found → Latest key found ops) :
    Keeps limits ops (memory limits entries) where
  keys := ⟨entries.map Prod.fst, h.nodup, List.length_map _, fun _ => isSome_lookup_iff.symm⟩
  size_le := h.length_le
  short key hkey := h.short key (isSome_lookup_iff.mp hkey)
  latest := hlatest
  admitted _ _ hshort := get?_insert_self hshort
  refused _ _ hlong := insert_of_long hlong
  replaced key parsed hkept := by
    rw [insert_of_kept (h.short key (isSome_lookup_iff.mp hkept)) hkept]
    refine ⟨length_replace _ _ _, fun other hne => ?_⟩
    rw [get?, lookup_replace, if_neg hne]
    rfl
  alone key parsed hshort hnew hfull := by
    rw [insert_of_full hshort hnew (Nat.le_of_eq hfull.symm)]
    refine ⟨rfl, fun other hne => ?_⟩
    rw [get?, lookup_cons, if_neg hne]
    rfl
  beside key parsed hshort hnew hroom := by
    rw [insert_of_room hshort hnew hroom]
    refine ⟨by simp [size], fun other hne => ?_⟩
    rw [get?, List.lookup_append, lookup_cons, if_neg hne]
    exact Option.or_none

/-- Whatever was inserted and however often it was cleared, a cache keeps what it promises. -/
theorem keeps_after (capacity maxLength : Nat) (ops : List Operation) :
    Keeps ⟨max capacity 1, maxLength⟩ ops
      (((withCapacity capacity).withMaxLength maxLength).after ops) := by
  have hpos : 0 < (Limits.mk (max capacity 1) maxLength).capacity :=
    Nat.lt_of_lt_of_le Nat.one_pos (Nat.le_max_right _ _)
  have hstart : (withCapacity capacity).withMaxLength maxLength =
      memory ⟨max capacity 1, maxLength⟩ [] := rfl
  obtain ⟨entries, hentries, hwithin⟩ := exists_within hpos ops
  rw [hstart, hentries]
  refine hwithin.keeps fun key found hfound => latest_of_get? hpos ?_
  rw [hentries]
  exact hfound

end Criteria.Cache
