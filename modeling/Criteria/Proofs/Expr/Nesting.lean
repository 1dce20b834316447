import Criteria.Proofs.Expr.Printing

/-!
# The nesting of trees that are read

The room for nesting is counted while a text is read, and the levels taken inside an
operand are free again behind it. What is then put above the operand is counted from the
level at which the operand began, so that the tree may nest deeper than the limit: each
level of the text can add as many levels to the tree as there is room left at it. The
sum of these is the exact bound.
-/

namespace Criteria.Expr

/-- The interior nodes on the longest way down through a node with parts. -/
def interior : List Nat → Nat
  | [] => 0
  | n :: ns => (n :: ns).foldr max 0 + 1

mutual

/-- The interior nodes on the longest way down through a tree, chains apart. -/
@[simp] def nesting : Expr → Nat
  | const _ | name _ => 0
  | array items => interior (nestings items)
  | hash entries => interior (nestingsOfEntries entries)
  | unary _ e => interior [nesting e]
  | binary _ l r => interior [nesting l, nesting r]
  | logical _ operands => (nestings operands).foldr max 0
  | conditional c yes no => interior [nesting c, nesting yes, nesting no]
  | call _ arguments => interior (nestings arguments)
  | access target key _ => interior [nesting target, nesting key]

@[simp] def nestings : List Expr → List Nat
  | [] => []
  | e :: es => nesting e :: nestings es

@[simp] def nestingsOfEntries : List (String × Expr) → List Nat
  | [] => []
  | (_, e) :: es => nesting e :: nestingsOfEntries es

end

@[simp] theorem interior_nil : interior [] = 0 := rfl

@[simp] theorem interior_cons (n : Nat) (ns : List Nat) :
    interior (n :: ns) = max (n + 1) (interior ns) := by
  cases ns with
  | nil => simp [interior]
  | cons m ms =>
    simp only [interior, List.foldr_cons]
    omega

theorem nestings_append (xs ys : List Expr) : nestings (xs ++ ys) = nestings xs ++ nestings ys := by
  induction xs with
  | nil => rfl
  | cons x xs ih => simp [ih]

theorem foldr_max_concat (ns : List Nat) (n : Nat) :
    (ns ++ [n]).foldr max 0 = max (ns.foldr max 0) n := by
  induction ns with
  | nil => simp
  | cons m ms ih =>
    simp only [List.cons_append, List.foldr_cons, ih]
    omega

theorem nesting_chain (op : BinaryOp) (l r : Expr) :
    nesting (chain op l r) = max (nesting l) (nesting r) := by
  have hpair : nesting (.logical op [l, r]) = max (nesting l) (nesting r) := by
    simp
  unfold chain
  split
  · next op' operands =>
    split
    · simp only [nesting, nestings_append, nestings, foldr_max_concat]
    · exact hpair
  · exact hpair

/-- Joining takes the level of the operator. -/
theorem nesting_join (op : BinaryOp) (l r : Expr) :
    nesting (join op l r) = max (nesting l) (nesting r) + level op := by
  cases hop : op.isLogical
  · have hjoin : join op l r = .binary op l r := by simp [join, hop]
    simp [hjoin, level, hop]
  · simp [join, level, hop, nesting_chain]

/-- The sum of the first `n` positive numbers. -/
def triangle : Nat → Nat
  | 0 => 0
  | n + 1 => triangle n + (n + 1)

theorem two_mul_triangle (n : Nat) : 2 * triangle n = n * (n + 1) := by
  induction n with
  | zero => rfl
  | succ n ih =>
    rw [triangle, Nat.mul_add, ih, ← Nat.add_mul, Nat.mul_comm]

theorem triangle_mono {m n : Nat} (h : m ≤ n) : triangle m ≤ triangle n := by
  induction h with
  | refl => exact Nat.le_refl _
  | step _ ih => exact Nat.le_trans ih (Nat.le_add_right _ _)

/-- One level more than some that need `m` is enough for the sum up to it. -/
theorem le_triangle_pred {n m : Nat} (h : n ≤ triangle m + m) : n ≤ triangle (1 + m) - 1 := by
  rw [Nat.add_comm, triangle]
  omega

variable {known : String → Bool}

/-- How deep a phrase may be that goes on with `e` where that is given, takes `used` levels
and needs `need`. -/
def Phrase.depth (used need : Nat) : Phrase → Nat
  | .expression _ => triangle need - 1
  | .primary => triangle need + used
  | .accesses e | .operators _ e => max e.nesting (triangle need) + used
  | .choices e => max e.nesting (triangle need) + need
  | .elements .. | .entries _ => triangle need

theorem Derives.need_pos {p : Nat} {ls rest : List Lexeme} {v : Expr} {used need : Nat}
    (h : Derives known (.expression p) ls v rest used need) : 0 < need := by
  cases h <;> omega

/-- The phrase `v` is no deeper than it may be. -/
def Phrase.Bounds (phrase : Phrase) (v : Expr) (used need : Nat) : Prop :=
  v.nesting ≤ phrase.depth used need

namespace Phrase.Bounds

variable {e start v : Expr} {p u u₁ u₂ n n' n₁ n₂ n₃ m : Nat}

/-- What is read inside brackets may have a node above it. -/
theorem above (h : Bounds (.expression p) e 0 n) (hpos : 0 < n) (hm : n ≤ m) :
    e.nesting + 1 ≤ triangle m := by
  have hmono := triangle_mono hm
  have htriangle : 0 < triangle n := by
    obtain ⟨k, rfl⟩ := Nat.exists_eq_add_of_le' hpos
    exact Nat.succ_pos _
  have hdepth : e.nesting ≤ triangle n - 1 := h
  omega

theorem full {f : Expr} (h₁ : Bounds .primary f u₁ n₁) (h₂ : Bounds (.operators 0 f) e u₂ n₂)
    (h₃ : Bounds (.choices e) v 0 n₃) :
    Bounds (.expression 0) v 0 (1 + max n₁ (max (u₁ + n₂) (u₁ + u₂ + n₃))) := by
  obtain ⟨m, hm⟩ : ∃ m, m = max n₁ (max (u₁ + n₂) (u₁ + u₂ + n₃)) := ⟨_, rfl⟩
  have ht₁ := triangle_mono (show n₁ ≤ m by omega)
  have ht₂ := triangle_mono (show n₂ ≤ m by omega)
  have ht₃ := triangle_mono (show n₃ ≤ m by omega)
  rw [← hm]
  refine le_triangle_pred ?_
  simp only [Bounds, depth] at h₁ h₂ h₃
  omega

theorem operand {f : Expr} (hu₂ : u₂ ≤ n₂) (h₁ : Bounds .primary f u₁ n₁)
    (h₂ : Bounds (.operators p f) v u₂ n₂) :
    Bounds (.expression p) v 0 (1 + max n₁ (u₁ + n₂)) := by
  obtain ⟨m, hm⟩ : ∃ m, m = max n₁ (u₁ + n₂) := ⟨_, rfl⟩
  have ht₁ := triangle_mono (show n₁ ≤ m by omega)
  have ht₂ := triangle_mono (show n₂ ≤ m by omega)
  rw [← hm]
  refine le_triangle_pred ?_
  simp only [Bounds, depth] at h₁ h₂
  omega

/-! ### Operands -/

/-- An operand that is `start` and the accesses behind it. -/
theorem primary (h : Bounds (.accesses start) v u n) (hn : n ≤ m)
    (hstart : start.nesting ≤ triangle m) : Bounds .primary v u m := by
  have ht := triangle_mono hn
  simp only [Bounds, depth] at h ⊢
  omega

theorem unary {op : UnaryOp} (h₁ : Bounds (.expression p) e 0 n) (hpos : 0 < n)
    (h₂ : Bounds (.accesses (.unary op e)) v u n') : Bounds .primary v u (max n n') := by
  have he := h₁.above hpos (Nat.le_max_left n n')
  refine h₂.primary (Nat.le_max_right n n') ?_
  simp only [nesting, interior_cons, interior_nil]
  omega

theorem group (h₁ : Bounds (.expression p) e 0 n) (hpos : 0 < n)
    (h₂ : Bounds (.accesses e) v u n') : Bounds .primary v u (max n n') := by
  have he := h₁.above hpos (Nat.le_max_left n n')
  exact h₂.primary (Nat.le_max_right n n') (Nat.le_of_succ_le he)

/-- What is in brackets is not deeper than the list of it. -/
theorem bracketed {list : Expr} (h₁ : list.nesting ≤ triangle n)
    (h₂ : Bounds (.accesses start) v u n') (hstart : start.nesting = list.nesting) :
    Bounds .primary v u (max n n') := by
  have he := triangle_mono (Nat.le_max_left n n')
  refine h₂.primary (Nat.le_max_right n n') ?_
  omega

/-! ### What goes on with an operand -/

theorem property {member : String}
    (h : Bounds (.accesses (.access e (.const (.string member)) .property)) v u n) :
    Bounds (.accesses e) v (1 + u) (1 + n) := by
  have ht := triangle_mono (Nat.le_add_left n 1)
  simp only [Bounds, depth, nesting, interior_cons, interior_nil] at h ⊢
  omega

theorem index {key : Expr} (h₁ : Bounds (.expression p) key 0 n) (hpos : 0 < n)
    (h₂ : Bounds (.accesses (.access e key .index)) v u n') :
    Bounds (.accesses e) v (1 + u) (1 + max n n') := by
  have hk := h₁.above hpos (show n ≤ 1 + max n n' by omega)
  have ht := triangle_mono (show n' ≤ 1 + max n n' by omega)
  simp only [Bounds, depth, nesting, interior_cons, interior_nil] at h₂ ⊢
  omega

theorem operator {p' : Nat} {op : BinaryOp} {right : Expr} (h₁ : Bounds (.expression p') right 0 n)
    (hpos : 0 < n) (h₂ : Bounds (.operators p (join op e right)) v u n') :
    Bounds (.operators p e) v (level op + u) (level op + max n n') := by
  have hr := h₁.above hpos (show n ≤ level op + max n n' by omega)
  have ht := triangle_mono (show n' ≤ level op + max n n' by omega)
  have hlevel : level op ≤ 1 := by unfold level; split <;> omega
  simp only [Bounds, depth, nesting_join] at h₂ ⊢
  omega

/-- A choice with `start` as its tree, which lies one level above its parts. -/
theorem choices (h : Bounds (.choices start) v 0 n) (hn : 1 + n ≤ m)
    (hstart : start.nesting ≤ max e.nesting (triangle m) + 1) : Bounds (.choices e) v 0 m := by
  have ht := triangle_mono (show n ≤ m by omega)
  simp only [Bounds, depth] at h ⊢
  omega

theorem shortChoice {no : Expr} (h₁ : Bounds (.expression p) no 0 n) (hpos : 0 < n)
    (h₂ : Bounds (.choices (.conditional e e no)) v 0 n') :
    Bounds (.choices e) v 0 (1 + max n n') := by
  have hno := h₁.above hpos (show n ≤ 1 + max n n' by omega)
  refine h₂.choices (by omega) ?_
  simp only [nesting, interior_cons, interior_nil]
  omega

theorem choice {p' : Nat} {yes no : Expr} (h₁ : Bounds (.expression p) yes 0 n₁) (hpos₁ : 0 < n₁)
    (h₂ : Bounds (.expression p') no 0 n₂) (hpos₂ : 0 < n₂)
    (h₃ : Bounds (.choices (.conditional e yes no)) v 0 n₃) :
    Bounds (.choices e) v 0 (1 + max n₁ (max n₂ n₃)) := by
  have hyes := h₁.above hpos₁ (show n₁ ≤ 1 + max n₁ (max n₂ n₃) by omega)
  have hno := h₂.above hpos₂ (show n₂ ≤ 1 + max n₁ (max n₂ n₃) by omega)
  refine h₃.choices (by omega) ?_
  simp only [nesting, interior_cons, interior_nil]
  omega

theorem openChoice {yes : Expr} (h₁ : Bounds (.expression p) yes 0 n) (hpos : 0 < n)
    (h₂ : Bounds (.choices (.conditional e yes (.const .null))) v 0 n') :
    Bounds (.choices e) v 0 (1 + max n n') := by
  have hyes := h₁.above hpos (show n ≤ 1 + max n n' by omega)
  refine h₂.choices (by omega) ?_
  simp only [nesting, interior_cons, interior_nil]
  omega

/-! ### What is listed in brackets -/

/-- One more in a list that is read with what is in front. -/
theorem cons {list : Expr} (h₁ : Bounds (.expression p) e 0 n) (hpos : 0 < n)
    (h₂ : list.nesting ≤ triangle n') : max (e.nesting + 1) list.nesting ≤ triangle (max n n') := by
  have he := h₁.above hpos (Nat.le_max_left n n')
  have ht := triangle_mono (Nat.le_max_right n n')
  omega

theorem element {close : Punctuation} {comma : Requirement} {trailing first : Bool}
    {es : List Expr} (h₁ : Bounds (.expression p) e 0 n) (hpos : 0 < n)
    (h₂ : Bounds (.elements close comma trailing false) (.array es) 0 n') :
    Bounds (.elements close comma trailing first) (.array (e :: es)) 0 (max n n') := by
  have hcons := h₁.cons hpos h₂
  simpa only [Bounds, depth, nesting, nestings, interior_cons] using hcons

theorem entry {k : String} {first : Bool} {es : List (String × Expr)}
    (h₁ : Bounds (.expression p) e 0 n) (hpos : 0 < n)
    (h₂ : Bounds (.entries false) (.hash es) 0 n') :
    Bounds (.entries first) (.hash ((k, e) :: es)) 0 (max n n') := by
  have hcons := h₁.cons hpos h₂
  simpa only [Bounds, depth, nesting, nestingsOfEntries, interior_cons] using hcons

end Phrase.Bounds

theorem Derives.bounds {phrase : Phrase} {ls rest : List Lexeme} {v : Expr} {used need : Nat}
    (h : Derives known phrase ls v rest used need) : phrase.Bounds v used need := by
  induction h with
  | full _ _ _ ih₁ ih₂ ih₃ => exact .full ih₁ ih₂ ih₃
  | operand _ _ h₂ ih₁ ih₂ => exact .operand h₂.used_le ih₁ ih₂
  | unary _ h₁ _ ih₁ ih₂ => exact .unary ih₁ h₁.need_pos ih₂
  | group h₁ _ ih₁ ih₂ => exact .group ih₁ h₁.need_pos ih₂
  | array _ _ ih₁ ih₂ | hash _ _ ih₁ ih₂ => exact .bracketed ih₁ ih₂ rfl
  | call _ _ _ _ ih₁ ih₂ => exact .bracketed ih₁ ih₂ (by simp only [nesting])
  | constant _ _ ih | name _ _ _ ih => exact ih.primary (Nat.le_refl _) (Nat.zero_le _)
  | noAccess | noOperator => exact Nat.le_max_left ..
  | noChoice => exact Nat.le_max_left ..
  | property _ _ ih => exact .property ih
  | index h₁ _ ih₁ ih₂ => exact .index ih₁ h₁.need_pos ih₂
  | operator _ _ h₁ _ ih₁ ih₂ => exact .operator ih₁ h₁.need_pos ih₂
  | shortChoice h₁ _ ih₁ ih₂ => exact .shortChoice ih₁ h₁.need_pos ih₂
  | choice _ h₁ h₂ _ ih₁ ih₂ ih₃ => exact .choice ih₁ h₁.need_pos ih₂ h₂.need_pos ih₃
  | openChoice _ h₁ _ _ ih₁ ih₂ => exact .openChoice ih₁ h₁.need_pos ih₂
  | noElements | lastComma | noEntries | lastEntryComma => exact Nat.zero_le _
  | firstElement _ h₁ _ ih₁ ih₂ | element _ _ h₁ _ ih₁ ih₂ => exact .element ih₁ h₁.need_pos ih₂
  | firstEntry _ h₁ _ ih₁ ih₂ | entry _ h₁ _ ih₁ ih₂ => exact .entry ih₁ h₁.need_pos ih₂

/-! ## The deepest trees -/

/-- The member `a`, taken `k` times. -/
def members : Nat → Expr → Expr
  | 0, e => e
  | k + 1, e => members k (.access e (.const (.string "a")) .property)

def memberLexemes : Nat → List Lexeme
  | 0 => []
  | k + 1 => .punctuation .dot :: .name "a" :: memberLexemes k

/-- The deepest tree of a text that is read with room for `k + 1` levels: inside the
brackets all the room is there again that the members behind them take. -/
def deepest : Nat → Expr
  | 0 => .name "a"
  | k + 1 => members (k + 1) (.array [deepest k])

theorem nesting_members (k : Nat) (e : Expr) : (members k e).nesting = e.nesting + k := by
  induction k generalizing e with
  | zero => rfl
  | succ k ih =>
    simp only [members, ih, nesting, interior_cons, interior_nil]
    omega

theorem nesting_deepest (k : Nat) : (deepest k).nesting + 1 = triangle (k + 1) := by
  induction k with
  | zero => rfl
  | succ k ih =>
    rw [triangle, ← ih]
    simp only [deepest, nesting_members, nesting, nestings, interior_cons, interior_nil]
    omega

theorem isReference_a : IsReference "a" :=
  ⟨isName_of_check rfl rfl rfl rfl rfl, rfl⟩

theorem prints_members (k : Nat) {e : Expr} {cs : List Char} {ls : List Lexeme}
    (h : Prints known e cs ls) : ∃ cs', Prints known (members k e) cs' (ls ++ memberLexemes k) := by
  induction k generalizing e cs ls with
  | zero => exact ⟨cs, by simpa [members, memberLexemes] using h⟩
  | succ k ih =>
    obtain ⟨cs', h'⟩ := ih (prints_property h isReference_a.isName)
    exact ⟨cs', by simpa [members, memberLexemes] using h'⟩

theorem derives_members (k : Nat) (e : Expr) {rest : List Lexeme} (hrest : Stops 0 rest) :
    Derives known (.accesses e) (memberLexemes k ++ rest) (members k e) rest k k := by
  induction k generalizing e with
  | zero => exact .noAccess hrest.noMember hrest.noIndex
  | succ k ih =>
    have hcall : ¬ StartsWith .openParen (memberLexemes k ++ rest) := by
      cases k with
      | zero => exact hrest.noCall
      | succ k => exact not_startsWith_punctuation (by decide)
    have d := Derives.property hcall (ih (.access e (.const (.string "a")) .property))
    rwa [Nat.add_comm 1] at d

/-- The deepest tree has a text that needs just the room it is meant for. -/
theorem deepest_read (known : String → Bool) (k : Nat) :
    ∃ cs ls, Prints known (deepest k) cs ls ∧ ∀ rest, Stops 0 rest →
      Derives known (.expression 0) (ls ++ rest) (deepest k) rest 0 (k + 1) := by
  induction k with
  | zero =>
    refine ⟨_, _, prints_name isReference_a, fun rest hrest => ?_⟩
    exact Derives.expression
      (.name isReference_a.notConstant hrest.noCall (.noAccess hrest.noMember hrest.noIndex)) hrest
  | succ k ih =>
    obtain ⟨cs, ls, hprints, hread⟩ := ih
    obtain ⟨cs', hprints'⟩ := prints_members (k + 1) (prints_array (.cons hprints .nil))
    refine ⟨cs', _, hprints', fun rest hrest => ?_⟩
    have hstops := stops_punctuation 0 (q := .closeBracket) rfl (memberLexemes (k + 1) ++ rest)
    have dlist : Derives known (.elements .closeBracket .arrayComma true true)
        (ls ++ .punctuation .closeBracket :: (memberLexemes (k + 1) ++ rest))
        (.array [deepest k]) (memberLexemes (k + 1) ++ rest) 0 (max (k + 1) 0) :=
      .firstElement (hprints.not_startsWith rfl _) (hread _ hstops) .noElements
    have d := Derives.expression (.array dlist (derives_members (k + 1) _ hrest)) hrest
    rw [Nat.max_zero, Nat.max_self, Nat.add_comm 1] at d
    simpa [deepest] using d

/-- What is read nests at most as deep as the sum of the levels of room, the first one
apart, and some text is read to a tree that nests so deep. -/
theorem nesting_ofText (known : String → Bool) :
    (∀ (source : String) (e : Expr), ofText known source = .ok e → e.nesting ≤ 32895) ∧
    ∃ source e, ofText known source = .ok e ∧ e.nesting = 32895 := by
  have htriangle : triangle maxNesting = 32896 := by
    have htwo : 2 * triangle maxNesting = 256 * (256 + 1) := two_mul_triangle maxNesting
    omega
  constructor
  · intro source e h
    obtain ⟨text, need, -, d, hneed⟩ := derives_of_ofText h
    have hle : e.nesting ≤ triangle need - 1 := d.bounds
    have hmono := triangle_mono hneed
    omega
  · obtain ⟨cs, ls, hprints, hread⟩ := deepest_read known 255
    have hlexed : Lexed (String.ofList cs).toList ls := by
      simpa using hprints.lexed (r := []) rfl .nil
    have d := hread [] (stops_nil 0)
    rw [List.append_nil] at d
    refine ⟨String.ofList cs, deepest 255, (ofText_of_lexed hlexed d).1 (by decide), ?_⟩
    have hdeep : (deepest 255).nesting + 1 = triangle maxNesting := nesting_deepest 255
    omega

theorem nesting_echoSum : echoSum.nesting ≤ 32895 :=
  (nesting_ofText (Function.isKnown [echo])).1 "echo(1) + 1" echoSum ofText_echoSum

end Criteria.Expr
