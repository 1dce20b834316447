import Criteria.Proofs.Expr.Printing

/-!
# The nodes of a tree

What is known of a tree that is read from a text holds at each of its nodes, however deep it
stands: a condition that passes from a node to its parts passes to every node below.
-/

namespace Criteria

/-- The words that names are: a letter or an underscore, and then letters, digits and
underscores. -/
def IsIdentifier (s : String) : Prop :=
  ∃ c cs, s.toList = c :: cs ∧ Text.isNameStart c = true ∧ ∀ d ∈ cs, Text.isNameChar d = true

theorem IsName.isIdentifier {s : String} (h : IsName s) : IsIdentifier s := by
  obtain ⟨c, cs, htext, -, hstart, hchars⟩ := h.chars
  exact ⟨c, cs, htext, hstart, hchars⟩

theorem BinaryOp.isLogical_iff {op : BinaryOp} :
    op.isLogical = true ↔ op = .and ∨ op = .or := by
  simp [isLogical]

namespace Expr

/-! ## Nodes -/

/-- The expressions right below a node, from the left. -/
def parts : Expr → List Expr
  | const _ | name _ => []
  | array items => items
  | hash entries => entries.map Prod.snd
  | unary _ e => [e]
  | binary _ l r => [l, r]
  | logical _ operands => operands
  | conditional c yes no => [c, yes, no]
  | call _ arguments => arguments
  | access target key _ => [target, key]

/-- `node` is a node of a tree. -/
inductive Occurs (node : Expr) : Expr → Prop
  | top : Occurs node node
  | within {e part : Expr} : part ∈ e.parts → Occurs node part → Occurs node e

/-- A condition that passes from a node to its parts passes to every node below. -/
theorem Occurs.of_parts {P : Expr → Prop} (step : ∀ e, P e → ∀ part ∈ e.parts, P part)
    {node e : Expr} (h : Occurs node e) (he : P e) : P node := by
  induction h with
  | top => exact he
  | within hpart _ ih => exact ih (step _ he _ hpart)

/-! ## Nodes of trees that are read -/

theorem constantWord?_eq_none {s : String} :
    constantWord? s = none ↔ Text.toAsciiLower s ∉ ["true", "false", "null"] := by
  unfold constantWord?
  split <;> simp_all

/-- The condition on a single node, where `functions` are registered. -/
def WellFormed (functions : List Function) : Expr → Prop
  | const v => Literal v
  | name s => IsIdentifier s ∧ Text.toAsciiLower s ∉ ["true", "false", "null"]
  | binary op _ _ => op ≠ .and ∧ op ≠ .or
  | logical op operands => (op = .and ∨ op = .or) ∧ ∃ first second rest,
      operands = first :: second :: rest ∧ ∀ inner, first ≠ logical op inner
  | call s _ => ∃ f ∈ functions, f.name = s
  | access _ key .property => ∃ member, key = const (.string member) ∧ IsIdentifier member
  | _ => True

/-- The parts of a regular tree are regular; the key of a property is a constant. -/
theorem Regular.of_mem_parts {known : String → Bool} {e : Expr} (h : Regular known e) :
    ∀ part ∈ e.parts, Regular known part := by
  cases h with
  | const | name => simp [parts]
  | array hes | call _ _ hes => exact hes
  | hash hes => exact List.forall_mem_map.mpr hes
  | unary he => simpa [parts] using he
  | binary _ hl hr => simp [parts, hl, hr]
  | logical _ _ hfirst hsecond hes => simpa [parts, hfirst, hsecond] using hes
  | conditional hc hyes hno => simp [parts, hc, hyes, hno]
  | property he => simp [parts, he, Regular.const (.string _)]
  | index he hkey => simp [parts, he, hkey]

/-- The node on top of a regular tree. -/
theorem Regular.wellFormed {functions : List Function} {e : Expr}
    (h : Regular (Function.isKnown functions) e) : WellFormed functions e := by
  cases h with
  | const hv => exact hv
  | name hs => exact ⟨hs.isName.isIdentifier, constantWord?_eq_none.mp hs.notConstant⟩
  | binary hop =>
    refine not_or.mp fun h => ?_
    rw [BinaryOp.isLogical_iff.mpr h] at hop
    cases hop
  | logical hop hfirst => exact ⟨BinaryOp.isLogical_iff.mp hop, _, _, _, rfl, hfirst⟩
  | call _ hknown => exact Function.isKnown_iff.mp hknown
  | property _ hmember => exact ⟨_, rfl, hmember.isIdentifier⟩
  | array | hash | unary | conditional | index => trivial

/-- Every node of a tree that is read from a text is well-formed. -/
theorem wellFormed_of_occurs {functions : List Function} {source : String} {e : Expr}
    (h : ofText (Function.isKnown functions) source = .ok e) {node : Expr}
    (hnode : Occurs node e) : WellFormed functions node :=
  (hnode.of_parts (fun _ he => he.of_mem_parts) (regular_of_ofText h)).wellFormed

/-- The call in `echo(1) + 1` is of a function that is registered. -/
theorem wellFormed_echo :
    WellFormed [echo] (.call "echo" [.const Numeric.one.toValue]) :=
  wellFormed_of_occurs ofText_echoSum (.within List.mem_cons_self .top)

end Expr

end Criteria
