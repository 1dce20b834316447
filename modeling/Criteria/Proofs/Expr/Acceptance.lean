import Criteria.Proofs.Expr.Nesting

/-!
# Which texts in full written form are read

Parentheses count as nesting. The full written form of an expression has parentheses that
its source can do without, so it may be refused for its nesting although the source was
read. It is refused for nothing else, and `levels` tells when.
-/

namespace Criteria.Expr

variable {known : String → Bool} {functions : List Function}

/-- The text of an expression that was read is read as the same expression just if its
levels are within the limit, and is refused for its nesting otherwise. -/
theorem ofText_render_iff (hf : UsualCalls functions) {source : String} {e : Expr}
    (h : ofText (Function.isKnown functions) source = .ok e) :
    ∃ s, e.render functions = .ok s ∧
      (ofText (Function.isKnown functions) s = .ok e ↔ e.levels ≤ maxNesting) ∧
      (¬ e.levels ≤ maxNesting → ∃ position,
        ofText (Function.isKnown functions) s = .error (.fault .tooDeep position s)) := by
  obtain ⟨s, ls, hs, hprints⟩ := renders_of_regular hf (regular_of_ofText h)
  obtain ⟨hok, hdeep⟩ := hprints.ofText_eq
  refine ⟨s, hs, ⟨fun hread => Classical.byContradiction fun hlevels => ?_, hok⟩, hdeep⟩
  obtain ⟨position, hrefused⟩ := hdeep hlevels
  rw [hrefused] at hread
  cases hread

theorem ofText_render_iff_echoSum :
    ∃ s, echoSum.render [echo] = .ok s ∧
      (ofText (Function.isKnown [echo]) s = .ok echoSum ↔ echoSum.levels ≤ maxNesting) ∧
      (¬ echoSum.levels ≤ maxNesting → ∃ position,
        ofText (Function.isKnown [echo]) s = .error (.fault .tooDeep position s)) :=
  ofText_render_iff (List.forall_mem_singleton.mpr rfl) ofText_echoSum

/-! ## Signs

A sign takes one level, and one more for the parentheses that it has in print. -/

/-- The name `a` behind `k` signs. -/
def minuses : Nat → Expr
  | 0 => .name "a"
  | k + 1 => .unary .negate (minuses k)

def minusText (k : Nat) : String := String.ofList (List.replicate k '-' ++ ['a'])

theorem levels_minuses (k : Nat) : (minuses k).levels = 2 * k + 1 := by
  induction k with
  | zero => rfl
  | succ k ih =>
    rw [minuses, levels, ih]
    omega

theorem lexed_minuses (k : Nat) :
    Lexed (List.replicate k '-' ++ ['a']) (List.replicate k (.operator .minus) ++ [.name "a"]) := by
  induction k with
  | zero => exact Lexed.word (w := ['a']) (isReference_a.isName.spells (r := []) rfl) .nil
  | succ k ih =>
    have hhead : (List.replicate k '-' ++ ['a']).head? ≠ some '=' := by
      cases k <;> simp [List.replicate_succ]
    exact Lexed.word (w := ['-']) (spells_unary .negate hhead) ih

theorem derives_minuses (k p : Nat) :
    Derives known (.expression p) (List.replicate k (.operator .minus) ++ [.name "a"]) (minuses k)
      [] 0 (k + 1) := by
  induction k generalizing p with
  | zero =>
    exact Derives.expression (.name isReference_a.notConstant (stops_nil p).noCall
      ((stops_nil p).noAccess _)) (stops_nil p)
  | succ k ih =>
    have hminus : UnaryOp.ofSpelling? .minus = some .negate := rfl
    have d := Derives.unary hminus (ih _) ((stops_nil p).noAccess _)
    rw [Nat.max_zero] at d
    have dall := d.expression (stops_nil p)
    rwa [Nat.add_comm 1] at dall

theorem ofText_minuses {k : Nat} (hk : k + 1 ≤ maxNesting) :
    ofText known (minusText k) = .ok (minuses k) := by
  have hlexed : Lexed (minusText k).toList (List.replicate k (.operator .minus) ++ [.name "a"]) := by
    rw [minusText, String.toList_ofList]
    exact lexed_minuses k
  exact (ofText_of_lexed hlexed (derives_minuses k 0)).1 (by omega)

/-- With 128 signs a name is read, and its full written form is not. -/
theorem render_minuses_tooDeep :
    ofText (Function.isKnown []) (minusText 128) = .ok (minuses 128) ∧
      ∃ s position, (minuses 128).render [] = .ok s ∧
        ofText (Function.isKnown []) s = .error (.fault .tooDeep position s) := by
  have hread : ofText (Function.isKnown []) (minusText 128) = .ok (minuses 128) :=
    ofText_minuses (by decide)
  have husual : UsualCalls [] := List.forall_mem_nil _
  obtain ⟨s, ls, hs, hprints⟩ := renders_of_regular husual (regular_of_ofText hread)
  obtain ⟨position, hrefused⟩ := hprints.ofText_eq.2 (by rw [levels_minuses]; decide)
  exact ⟨hread, s, position, hs, hrefused⟩

end Criteria.Expr
