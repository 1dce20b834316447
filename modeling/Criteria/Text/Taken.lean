/-!
# Reading from the front of a text

A reader takes characters off the front of a text and returns what is left. The type
says that something was taken, so that a reader which goes on with the rest ends.
-/

namespace Criteria.Text

/-! ## Lengths -/

theorem length_drop_le (n : Nat) (cs : List Char) : (cs.drop n).length ≤ cs.length + 2 :=
  Nat.le_add_right_of_le (List.drop_sublist n cs).length_le

theorem length_drop_lt (n : Nat) (cs : List Char) : (cs.drop n).length < cs.length + 2 :=
  Nat.lt_succ_of_le (Nat.le_succ_of_le (List.drop_sublist n cs).length_le)

theorem length_drop_drop_lt (m n : Nat) (cs : List Char) :
    ((cs.drop m).drop n).length < cs.length + 1 :=
  Nat.lt_succ_of_le
    (Nat.le_trans (List.drop_sublist n _).length_le (List.drop_sublist m cs).length_le)

/-! ## Readers -/

/-- Something read from the front of a text; the rest is shorter than `bound`. -/
structure Taken (α : Type) (bound : Nat) where
  value : α
  rest : List Char
  shorter : rest.length < bound

namespace Taken

variable {α β : Type} {m n : Nat}

def map (f : α → β) (t : Taken α n) : Taken β n :=
  ⟨f t.value, t.rest, t.shorter⟩

def widen (t : Taken α m) (h : m ≤ n) : Taken α n :=
  ⟨t.value, t.rest, Nat.lt_of_lt_of_le t.shorter h⟩

/-- Behind one more character. -/
def behind (t : Taken α n) : Taken α (n + 1) :=
  t.widen (Nat.le_succ n)

/-- A value at the front of `cs`, for which the character before it was taken. -/
def here (a : α) (cs : List Char) : Taken α (cs.length + 1) :=
  ⟨a, cs, Nat.lt_succ_self _⟩

/-- What is behind the next character of the rest. -/
theorem length_lt (t : Taken α n) {c : Char} {rest : List Char} (h : t.rest = c :: rest) :
    rest.length < n + 1 := by
  have := t.shorter
  rw [h, List.length_cons] at this
  omega

/-- The first character. -/
def character : (cs : List Char) → Option (Taken Char cs.length)
  | [] => none
  | c :: rest => some (here c rest)

/-- The longest run of characters that satisfy `p`. -/
def run (p : Char → Bool) (cs : List Char) : Taken (List Char) (cs.length + 1) :=
  ⟨cs.takeWhile p, cs.dropWhile p, Nat.lt_succ_of_le (List.dropWhile_sublist p).length_le⟩

end Taken

end Criteria.Text
