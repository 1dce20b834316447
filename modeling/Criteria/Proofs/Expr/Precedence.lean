import Criteria.Proofs.Expr.Nesting
import Criteria.Proofs.Expr.Operand

/-!
# Operators without parentheses

A sequence of names and literals with operators between them is read as the one tree that has
them in this order and obeys the table of precedences: what stands to the left of an operator
binds at least as tightly and what stands to its right binds tighter, the other way round for
powers, and a logical chain is one node whose operands all bind tighter than its operator.

The trees of this kind are derived from their own lexemes, and every sequence has one. What the
reader returns is then this tree, since it cannot return two.
-/

namespace Criteria.Expr

variable {known : String → Bool}

/-! ## Behind a closing mark -/

/-- Whether a phrase ends with a mark of its own. -/
def Phrase.closes : Phrase → Bool
  | .elements .. | .entries _ => true
  | _ => false

theorem startsWith_append {p : Punctuation} {ls : List Lexeme} (h : ls ≠ []) (more : List Lexeme) :
    StartsWith p (ls ++ more) ↔ StartsWith p ls := by
  obtain ⟨l, ls, rfl⟩ := List.exists_cons_of_ne_nil h
  exact Iff.rfl

theorem startsWithOperator_append {p : Nat} {ls : List Lexeme} (h : ls ≠ [])
    (more : List Lexeme) : StartsWithOperator p (ls ++ more) ↔ StartsWithOperator p ls := by
  obtain ⟨l, ls, rfl⟩ := List.exists_cons_of_ne_nil h
  exact Iff.rfl

namespace Derives

variable {phrase : Phrase} {ls rest : List Lexeme} {v : Expr} {used need : Nat}

theorem ne_nil (d : Derives known phrase ls v rest used need)
    (h : 0 < phrase.least ∨ rest ≠ []) : ls ≠ [] := by
  have hlen := d.length_le
  rintro rfl
  rw [List.length_nil] at hlen
  rcases h with h | h
  · omega
  · exact h (List.eq_nil_of_length_eq_zero (by omega))

/-- What stands behind a phrase does not matter, if the phrase has a closing mark of its own or
something stood behind it already. -/
theorem append (d : Derives known phrase ls v rest used need) (more : List Lexeme)
    (h : phrase.closes = false → rest ≠ []) :
    Derives known phrase (ls ++ more) v (rest ++ more) used need := by
  induction d with
  | full _ d₂ d₃ ih₁ ih₂ ih₃ =>
    have h₃ := h rfl
    have h₂ := d₃.ne_nil (.inr h₃)
    exact .full (ih₁ (fun _ => d₂.ne_nil (.inr h₂))) (ih₂ (fun _ => h₂)) (ih₃ h)
  | operand hp _ d₂ ih₁ ih₂ =>
    have h₂ := h rfl
    exact .operand hp (ih₁ (fun _ => d₂.ne_nil (.inr h₂))) (ih₂ h)
  | unary hs _ d₂ ih₁ ih₂ =>
    have h₂ := h rfl
    exact .unary hs (ih₁ (fun _ => d₂.ne_nil (.inr h₂))) (ih₂ h)
  | group _ _ ih₁ ih₂ => exact .group (ih₁ (fun _ => List.cons_ne_nil _ _)) (ih₂ h)
  | array _ _ ih₁ ih₂ => exact .array (ih₁ nofun) (ih₂ h)
  | hash _ _ ih₁ ih₂ => exact .hash (ih₁ nofun) (ih₂ h)
  | constant hc _ ih => exact .constant hc (ih h)
  | call hc hs _ _ ih₁ ih₂ => exact .call hc hs (ih₁ nofun) (ih₂ h)
  | name hc hn d ih =>
    have h₁ := h rfl
    exact .name hc (mt (startsWith_append (d.ne_nil (.inr h₁)) more).mp hn) (ih h)
  | noAccess hd hb =>
    have h₁ := h rfl
    exact .noAccess (mt (startsWith_append h₁ more).mp hd) (mt (startsWith_append h₁ more).mp hb)
  | property hn d ih =>
    have h₁ := h rfl
    exact .property (mt (startsWith_append (d.ne_nil (.inr h₁)) more).mp hn) (ih h)
  | index _ _ ih₁ ih₂ => exact .index (ih₁ (fun _ => List.cons_ne_nil _ _)) (ih₂ h)
  | noOperator hn => exact .noOperator (mt (startsWithOperator_append (h rfl) more).mp hn)
  | operator hs hp _ d₂ ih₁ ih₂ =>
    have h₂ := h rfl
    exact .operator hs hp (ih₁ (fun _ => d₂.ne_nil (.inr h₂))) (ih₂ h)
  | noChoice hn => exact .noChoice (mt (startsWith_append (h rfl) more).mp hn)
  | shortChoice _ d₂ ih₁ ih₂ =>
    have h₂ := h rfl
    exact .shortChoice (ih₁ (fun _ => d₂.ne_nil (.inr h₂))) (ih₂ h)
  | choice hc d₁ _ d₃ ih₁ ih₂ ih₃ =>
    have h₃ := h rfl
    have hne := d₁.ne_nil (.inr (List.cons_ne_nil _ _))
    exact .choice (mt (startsWith_append hne more).mp hc) (ih₁ (fun _ => List.cons_ne_nil _ _))
      (ih₂ (fun _ => d₃.ne_nil (.inr h₃))) (ih₃ h)
  | openChoice hc d₁ hn d₂ ih₁ ih₂ =>
    have h₂ := h rfl
    have h₁ := d₂.ne_nil (.inr h₂)
    exact .openChoice (mt (startsWith_append (d₁.ne_nil (.inr h₁)) more).mp hc) (ih₁ (fun _ => h₁))
      (mt (startsWith_append h₁ more).mp hn) (ih₂ h)
  | noElements => exact .noElements
  | firstElement hn d₁ d₂ ih₁ ih₂ =>
    have h₁ := d₂.ne_nil (.inl Nat.one_pos)
    exact .firstElement (mt (startsWith_append (d₁.ne_nil (.inr h₁)) more).mp hn) (ih₁ (fun _ => h₁))
      (ih₂ nofun)
  | lastComma hc => exact .lastComma hc
  | element hc ht d₁ d₂ ih₁ ih₂ =>
    have h₁ := d₂.ne_nil (.inl Nat.one_pos)
    have hne := d₁.ne_nil (.inr h₁)
    refine .element hc (fun ⟨htrailing, hclose⟩ => ht ⟨htrailing, ?_⟩) (ih₁ (fun _ => h₁)) (ih₂ nofun)
    exact (startsWith_append hne more).mp hclose
  | noEntries => exact .noEntries
  | firstEntry hk _ d₂ ih₁ ih₂ =>
    exact .firstEntry hk (ih₁ (fun _ => d₂.ne_nil (.inl Nat.one_pos))) (ih₂ nofun)
  | lastEntryComma => exact .lastEntryComma
  | entry hk _ d₂ ih₁ ih₂ =>
    exact .entry hk (ih₁ (fun _ => d₂.ne_nil (.inl Nat.one_pos))) (ih₂ nofun)

end Derives

/-! ## Trees in the order of their operators -/

/-- Operands with operators between them: the first operand, and every operator with the operand
behind it. -/
structure Line where
  first : Expr
  steps : List (BinaryOp × Expr)

mutual

/-- The operands and operators of a tree from left to right. -/
def line : Expr → Line
  | binary op l r => ⟨(line l).first, (line l).steps ++ (op, (line r).first) :: (line r).steps⟩
  | logical op (e :: es) => ⟨(line e).first, (line e).steps ++ stepsOfAll op es⟩
  | e => ⟨e, []⟩

/-- The same of operands that all have the operator `op` in front of them. -/
def stepsOfAll (op : BinaryOp) : List Expr → List (BinaryOp × Expr)
  | [] => []
  | e :: es => (op, (line e).first) :: ((line e).steps ++ stepsOfAll op es)

end

/-- The operator at the root of a tree. -/
def operator? : Expr → Option BinaryOp
  | binary op _ _ | logical op _ => some op
  | _ => none

/-- The tree `e` binds at least as tightly as `p` says; operands bind as tightly as can be. -/
def Binds (p : Nat) (e : Expr) : Prop := ∀ op ∈ e.operator?, p ≤ op.precedence

/-- The trees that obey the table of precedences. Nothing is said of the inside of operands. -/
inductive Ordered : Expr → Prop
  | operand {e : Expr} : e.operator? = none → Ordered e
  | binary {op : BinaryOp} {l r : Expr} : op.isLogical = false → op ≠ .power →
      Binds op.precedence l → Binds (op.precedence + 1) r → Ordered l → Ordered r →
      Ordered (.binary op l r)
  | power {l r : Expr} : Binds (BinaryOp.power.precedence + 1) l →
      Binds BinaryOp.power.precedence r → Ordered l → Ordered r → Ordered (.binary .power l r)
  | logical {op : BinaryOp} {es : List Expr} : op.isLogical = true → 2 ≤ es.length →
      (∀ e ∈ es, Binds (op.precedence + 1) e) → (∀ e ∈ es, Ordered e) → Ordered (.logical op es)

theorem Binds.mono {p q : Nat} (hqp : q ≤ p) {e : Expr} (h : Binds p e) : Binds q e :=
  fun op hop => Nat.le_trans hqp (h op hop)

theorem line_of_operator? {e : Expr} (h : e.operator? = none) : e.line = ⟨e, []⟩ := by
  cases e <;> first | rfl | cases h

/-! ## Sequences of names and literals -/

/-- The lexemes of a name or a literal with the operand that they are. Arrays and hashes are
literals as constants are, whatever stands inside. -/
inductive IsAtom (known : String → Bool) : List Lexeme → Expr → Prop
  | name {s : String} : constantWord? s = none → IsAtom known [.name s] (.name s)
  | constant {l : Lexeme} {v : Value} : constant? l = some v → IsAtom known [l] (.const v)
  | array {ls : List Lexeme} {es : List Expr} {n : Nat} :
      Derives known (.elements .closeBracket .arrayComma true true) ls (.array es) [] 0 n →
      IsAtom known (.punctuation .openBracket :: ls) (.array es)
  | hash {ls : List Lexeme} {es : List (String × Expr)} {n : Nat} :
      Derives known (.entries true) ls (.hash es) [] 0 n →
      IsAtom known (.punctuation .openBrace :: ls) (.hash es)

structure Atom (known : String → Bool) where
  lexemes : List Lexeme
  operand : Expr
  isAtom : IsAtom known lexemes operand

/-- An operator with the atom behind it. -/
structure Step (known : String → Bool) where
  spelling : Spelling
  op : BinaryOp
  spells : BinaryOp.ofSpelling? spelling = some op
  atom : Atom known

namespace Step

def lexemes (s : Step known) : List Lexeme := .operator s.spelling :: s.atom.lexemes

def entry (s : Step known) : BinaryOp × Expr := (s.op, s.atom.operand)

/-- The first of the operators, if there is one, binds less tightly than `q` says. -/
def Looser (q : Nat) (steps : List (Step known)) : Prop := ∀ s ∈ steps.head?, s.op.precedence < q

theorem Looser.mono {q q' : Nat} (h : q ≤ q') {steps : List (Step known)} (hl : Looser q steps) :
    Looser q' steps :=
  fun s hs => Nat.lt_of_lt_of_le (hl s hs) h

theorem not_startsWith (p : Punctuation) (steps : List (Step known)) :
    ¬ StartsWith p (steps.flatMap lexemes) := by
  cases steps with
  | nil => simp [StartsWith]
  | cons s steps => exact not_startsWith_operator

theorem Looser.not_startsWithOperator {q : Nat} {steps : List (Step known)} (h : Looser q steps) :
    ¬ StartsWithOperator q (steps.flatMap lexemes) := by
  rintro ⟨spelling, op, hhead, hop, hle⟩
  cases steps with
  | nil => cases hhead
  | cons s steps =>
    obtain rfl : s.spelling = spelling := by simpa [lexemes] using hhead
    obtain rfl : s.op = op := Option.some.inj (s.spells.symm.trans hop)
    exact Nat.not_lt.mpr hle (h s rfl)

theorem noAccess (e : Expr) (steps : List (Step known)) :
    Derives known (.accesses e) (steps.flatMap lexemes) e (steps.flatMap lexemes) 0 0 :=
  .noAccess (not_startsWith _ _) (not_startsWith _ _)

end Step

theorem Atom.operator?_operand (a : Atom known) : a.operand.operator? = none := by
  obtain ⟨ls, e, h⟩ := a
  cases h <;> rfl

/-- An atom is read as its operand in front of operators. -/
theorem Atom.primary (a : Atom known) (steps : List (Step known)) :
    ∃ n, Derives known .primary (a.lexemes ++ steps.flatMap Step.lexemes) a.operand
      (steps.flatMap Step.lexemes) 0 n := by
  obtain ⟨ls, e, h⟩ := a
  cases h with
  | name hs => exact ⟨_, .name hs (Step.not_startsWith _ _) (Step.noAccess _ steps)⟩
  | constant hl => exact ⟨_, .constant hl (Step.noAccess _ steps)⟩
  | array d => exact ⟨_, .array (d.append _ nofun) (Step.noAccess _ steps)⟩
  | hash d => exact ⟨_, .hash (d.append _ nofun) (Step.noAccess _ steps)⟩

/-! ## Ordered trees are derived -/

/-- Behind the first operand of the tree `t`, its operators are read and put together as `t`, with
which reading goes on. -/
def Climbs (known : String → Bool) (t : Expr) : Prop :=
  ∀ ⦃first : Atom known⦄ ⦃steps after : List (Step known)⦄ ⦃p : Nat⦄,
    t.line = ⟨first.operand, steps.map Step.entry⟩ → Binds p t →
    (∀ op ∈ t.operator?, Step.Looser op.rightPrecedence after) →
    ∀ ⦃v : Expr⦄ ⦃rest : List Lexeme⦄ ⦃used need : Nat⦄,
      Derives known (.operators p t) (after.flatMap Step.lexemes) v rest used need →
      ∃ used need, Derives known (.operators p first.operand)
        ((steps ++ after).flatMap Step.lexemes) v rest used need

theorem le_rightPrecedence (op : BinaryOp) : op.precedence ≤ op.rightPrecedence := by
  unfold BinaryOp.rightPrecedence
  split <;> omega

theorem rightPrecedence_le (op : BinaryOp) : op.rightPrecedence ≤ op.precedence + 1 := by
  unfold BinaryOp.rightPrecedence
  split <;> omega

/-- As an expression, such a tree is read up to an operator that binds less tightly. -/
theorem Climbs.expression {t : Expr} (h : Climbs known t) {first : Atom known}
    {steps after : List (Step known)} {p : Nat}
    (ht : t.line = ⟨first.operand, steps.map Step.entry⟩) (hp : Binds p t)
    (hafter : Step.Looser p after) :
    ∃ n, Derives known (.expression p)
      (first.lexemes ++ (steps ++ after).flatMap Step.lexemes) t (after.flatMap Step.lexemes) 0 n := by
  have hlooser : ∀ op ∈ t.operator?, Step.Looser op.rightPrecedence after := fun op hop =>
    hafter.mono (Nat.le_trans (hp op hop) (le_rightPrecedence op))
  obtain ⟨n₁, d₁⟩ := first.primary (steps ++ after)
  obtain ⟨u₂, n₂, d₂⟩ := h ht hp hlooser (.noOperator hafter.not_startsWithOperator)
  by_cases hzero : p = 0
  · subst hzero
    exact ⟨_, .full d₁ d₂ (.noChoice (Step.not_startsWith _ _))⟩
  · exact ⟨_, .operand hzero d₁ d₂⟩

/-- A step of the reader: an operator with its right operand. -/
theorem Climbs.operator {r : Expr} (h : Climbs known r) {s : Step known}
    {steps after : List (Step known)} {p : Nat} {l : Expr}
    (hr : r.line = ⟨s.atom.operand, steps.map Step.entry⟩) (hbinds : Binds s.op.rightPrecedence r)
    (hp : p ≤ s.op.precedence) (hafter : Step.Looser s.op.rightPrecedence after) {v : Expr}
    {rest : List Lexeme} {used need : Nat}
    (d : Derives known (.operators p (join s.op l r)) (after.flatMap Step.lexemes) v rest used need) :
    ∃ used need, Derives known (.operators p l) ((s :: (steps ++ after)).flatMap Step.lexemes) v rest
      used need := by
  obtain ⟨n, dr⟩ := h.expression hr hbinds hafter
  exact ⟨_, _, .operator s.spells hp dr d⟩

theorem climbs_binary {op : BinaryOp} (hop : op.isLogical = false) {l r : Expr}
    (hleft : ∀ op' ∈ l.operator?, op.precedence < op'.rightPrecedence)
    (hl : Binds op.precedence l) (hr : Binds op.rightPrecedence r) (ihl : Climbs known l)
    (ihr : Climbs known r) : Climbs known (.binary op l r) := by
  intro first steps after p ht hp hafter v rest used need d
  obtain ⟨hfirst, hsteps⟩ := Line.mk.inj ht
  obtain ⟨before, behind, rfl, hbefore, hbehind⟩ := List.map_eq_append_iff.mp hsteps.symm
  obtain ⟨s, steps, rfl, hs, hright⟩ := List.map_eq_cons_iff.mp hbehind
  obtain ⟨rfl, hoperand⟩ := Prod.mk.inj hs
  have hp : p ≤ s.op.precedence := hp s.op rfl
  have hjoin : join s.op l r = .binary s.op l r := by rw [join, hop, if_neg (by decide)]
  obtain ⟨u, n, d⟩ := ihr.operator (l := l) (by rw [hoperand, hright]) hr hp (hafter s.op rfl)
    (hjoin ▸ d)
  rw [List.append_assoc]
  refine ihl (by rw [← hfirst, hbefore]) (hl.mono hp) (fun op' hop' => ?_) d
  rintro s' ⟨⟩
  exact hleft op' hop'

/-- The operands of a chain, one behind the other. -/
theorem climbs_operands {op : BinaryOp} (hop : op.rightPrecedence = op.precedence + 1)
    {es : List Expr} (hes : ∀ e ∈ es, Binds (op.precedence + 1) e)
    (ih : ∀ e ∈ es, Climbs known e) {steps after : List (Step known)}
    (hsteps : stepsOfAll op es = steps.map Step.entry) {p : Nat} (hp : p ≤ op.precedence)
    (hafter : Step.Looser op.rightPrecedence after) (e : Expr) {v : Expr} {rest : List Lexeme}
    {used need : Nat} (d : Derives known (.operators p (es.foldl (join op) e))
      (after.flatMap Step.lexemes) v rest used need) :
    ∃ used need, Derives known (.operators p e) ((steps ++ after).flatMap Step.lexemes) v rest
      used need := by
  induction es generalizing steps e with
  | nil =>
    obtain rfl := List.map_eq_nil_iff.mp hsteps.symm
    exact ⟨_, _, d⟩
  | cons r es ihes =>
    obtain ⟨hr, hes⟩ := List.forall_mem_cons.mp hes
    obtain ⟨ihr, ih⟩ := List.forall_mem_cons.mp ih
    obtain ⟨s, steps, rfl, hs, hbehind⟩ := List.map_eq_cons_iff.mp hsteps.symm
    obtain ⟨inside, behind, rfl, hinside, hbehind⟩ := List.map_eq_append_iff.mp hbehind
    obtain ⟨rfl, hoperand⟩ := Prod.mk.inj hs
    obtain ⟨u, n, d⟩ := ihes hes ih hbehind.symm (join s.op e r) d
    have hlooser : Step.Looser s.op.rightPrecedence (behind ++ after) := by
      cases es with
      | nil =>
        obtain rfl := List.map_eq_nil_iff.mp hbehind
        exact hafter
      | cons r' es =>
        obtain ⟨s', behind, rfl, hs', -⟩ := List.map_eq_cons_iff.mp hbehind
        have hop' : s'.op = s.op := (Prod.mk.inj hs').1
        rintro _ ⟨⟩
        rw [hop', hop]
        exact Nat.lt_succ_self _
    rw [List.cons_append, List.append_assoc]
    exact ihr.operator (by rw [hoperand, hinside]) (hop ▸ hr) hp hlooser d

theorem climbs_logical {op : BinaryOp} (hop : op.isLogical = true) {es : List Expr}
    (hlen : 2 ≤ es.length) (hes : ∀ e ∈ es, Binds (op.precedence + 1) e)
    (ih : ∀ e ∈ es, Climbs known e) : Climbs known (.logical op es) := by
  obtain ⟨first, second, es, rfl⟩ : ∃ first second tail, es = first :: second :: tail := by
    match es, hlen with
    | first :: second :: es, _ => exact ⟨_, _, _, rfl⟩
  intro a steps after p ht hp hafter v rest used need d
  obtain ⟨hfirst, hsteps⟩ := Line.mk.inj ht
  obtain ⟨before, behind, rfl, hbefore, hbehind⟩ := List.map_eq_append_iff.mp hsteps.symm
  obtain ⟨hl, hes⟩ := List.forall_mem_cons.mp hes
  obtain ⟨ihl, ih⟩ := List.forall_mem_cons.mp ih
  have hp : p ≤ op.precedence := hp op rfl
  have hright : op.rightPrecedence = op.precedence + 1 := by
    cases op <;> first | rfl | cases hop
  have hne : ∀ operands, first ≠ .logical op operands := by
    rintro operands rfl
    exact Nat.not_succ_le_self _ (hl op rfl)
  rw [← foldl_join_of_ne hop hne] at d
  obtain ⟨u, n, d⟩ := climbs_operands hright hes ih hbehind.symm hp (hafter op rfl) first d
  rw [List.append_assoc]
  refine ihl (by rw [← hfirst, hbefore]) (hl.mono (Nat.le_succ_of_le hp)) (fun op' hop' => ?_) d
  obtain ⟨s, behind, rfl, hs, -⟩ := List.map_eq_cons_iff.mp hbehind
  have heq : s.op = op := (Prod.mk.inj hs).1
  rintro _ ⟨⟩
  rw [heq]
  exact Nat.lt_of_lt_of_le (hl op' hop') (le_rightPrecedence op')

theorem eq_power_of_precedence {op : BinaryOp}
    (h : op.precedence = BinaryOp.power.precedence) : op = .power := by
  cases op <;> first | rfl | exact absurd h (by decide)

theorem rightPrecedence_of_ne {op : BinaryOp} (h : op ≠ .power) :
    op.rightPrecedence = op.precedence + 1 := by
  rw [BinaryOp.rightPrecedence, BinaryOp.isRightAssociative, beq_false_of_ne h, if_neg (by decide)]

/-- Only powers and tighter operators can stand to the right of a power. -/
theorem lt_rightPrecedence {op op' : BinaryOp} (hop : op ≠ .power)
    (h : op.precedence ≤ op'.precedence) : op.precedence < op'.rightPrecedence := by
  by_cases hop' : op' = .power
  · have hne : op.precedence ≠ op'.precedence := fun heq =>
      hop (eq_power_of_precedence (hop' ▸ heq))
    exact Nat.lt_of_lt_of_le (Nat.lt_of_le_of_ne h hne) (le_rightPrecedence op')
  · rw [rightPrecedence_of_ne hop']
    exact Nat.lt_succ_of_le h

theorem Ordered.climbs {t : Expr} (h : Ordered t) : Climbs known t := by
  induction h with
  | @operand e h =>
    intro first steps after p ht _ _ v rest used need d
    obtain ⟨hfirst, hsteps⟩ := Line.mk.inj ((line_of_operator? h).symm.trans ht)
    obtain rfl := List.map_eq_nil_iff.mp hsteps.symm
    exact ⟨_, _, hfirst ▸ d⟩
  | binary hop hne hl hr _ _ ihl ihr =>
    exact climbs_binary hop (fun op' hop' => lt_rightPrecedence hne (hl op' hop')) hl
      (rightPrecedence_of_ne hne ▸ hr) ihl ihr
  | power hl hr _ _ ihl ihr =>
    refine climbs_binary rfl (fun op' hop' => ?_) (hl.mono (Nat.le_succ _)) hr ihl ihr
    exact Nat.lt_of_lt_of_le (hl op' hop') (le_rightPrecedence op')
  | logical hop hlen hes _ ih => exact climbs_logical hop hlen hes ih

/-- The lexemes of an ordered tree are derived to be the tree. -/
theorem Ordered.derives {t : Expr} (h : Ordered t) {first : Atom known} {steps : List (Step known)}
    (ht : t.line = ⟨first.operand, steps.map Step.entry⟩) :
    ∃ n, Derives known (.expression 0) (first.lexemes ++ steps.flatMap Step.lexemes) t [] 0 n := by
  have hend : Step.Looser 0 ([] : List (Step known)) := fun s hs => nomatch hs
  have hbinds : Binds 0 t := fun op _ => Nat.zero_le _
  simpa using h.climbs.expression ht hbinds hend

/-! ## Every sequence has an ordered tree -/

theorem eq_of_precedence {op op' : BinaryOp} (hop : op.isLogical = true)
    (h : op'.precedence = op.precedence) : op' = op := by
  have hcases : op = .and ∨ op = .or := by simpa [BinaryOp.isLogical] using hop
  rcases hcases with rfl | rfl <;> cases op' <;> first | rfl | exact absurd h (by decide)

/-- What may stand to the left of an operator binds at least as tightly. -/
theorem le_of_lt_rightPrecedence {op op' : BinaryOp} (h : op.precedence < op'.rightPrecedence) :
    op.precedence ≤ op'.precedence :=
  Nat.le_of_lt_succ (Nat.lt_of_lt_of_le h (rightPrecedence_le op'))

theorem stepsOfAll_append (op : BinaryOp) (es es' : List Expr) :
    stepsOfAll op (es ++ es') = stepsOfAll op es ++ stepsOfAll op es' := by
  induction es with
  | nil => rfl
  | cons e es ih => simp [stepsOfAll, ih]

/-- In an ordered tree a logical operator makes a chain. -/
theorem Ordered.eq_logical {op : BinaryOp} (hop : op.isLogical = true) {e : Expr} (h : Ordered e)
    (he : op ∈ e.operator?) :
    ∃ es, e = .logical op es ∧ 2 ≤ es.length ∧ (∀ e ∈ es, Binds (op.precedence + 1) e) ∧
      ∀ e ∈ es, Ordered e := by
  cases h with
  | operand hnone => simp [hnone] at he
  | binary hnot => cases he; simp [hop] at hnot
  | power => cases he; cases hop
  | logical _ hlen hes hall => cases he; exact ⟨_, rfl, hlen, hes, hall⟩

theorem ordered_binary {op : BinaryOp} (hop : op.isLogical = false) {l r : Expr} (hl : Ordered l)
    (hr : Ordered r) (hleft : ∀ op' ∈ l.operator?, op.precedence < op'.rightPrecedence)
    (hright : Binds op.rightPrecedence r) : Ordered (.binary op l r) := by
  by_cases hpower : op = .power
  · subst hpower
    refine .power (fun op' hop' => ?_) hright hl hr
    have hlt := hleft op' hop'
    have hne : op' ≠ .power := by
      rintro rfl
      exact absurd hlt (by decide)
    have hprec : op'.precedence ≠ BinaryOp.power.precedence := mt eq_power_of_precedence hne
    have hle := le_of_lt_rightPrecedence hlt
    omega
  · rw [rightPrecedence_of_ne hpower] at hright
    exact .binary hop hpower (fun op' hop' => le_of_lt_rightPrecedence (hleft op' hop')) hright hl hr

/-- The operator `op` and a right operand behind an ordered tree that may stand to its left. -/
theorem Ordered.join {op : BinaryOp} {l r : Expr} (hl : Ordered l) (hr : Ordered r)
    (hleft : ∀ op' ∈ l.operator?, op.precedence < op'.rightPrecedence)
    (hright : Binds op.rightPrecedence r) :
    Ordered (join op l r) ∧ (join op l r).operator? = some op ∧
      (join op l r).line = ⟨l.line.first, l.line.steps ++ (op, r.line.first) :: r.line.steps⟩ := by
  cases hop : op.isLogical with
  | false =>
    rw [Expr.join, hop, if_neg (by decide)]
    exact ⟨ordered_binary hop hl hr hleft hright, rfl, rfl⟩
  | true =>
    have hne : op ≠ .power := by
      rintro rfl
      cases hop
    rw [rightPrecedence_of_ne hne] at hright
    by_cases hchain : op ∈ l.operator?
    · obtain ⟨es, rfl, hlen, hes, hall⟩ := hl.eq_logical hop hchain
      have hjoin : Expr.join op (.logical op es) r = .logical op (es ++ [r]) := by
        simp [Expr.join, hop, chain]
      obtain ⟨e, es, rfl⟩ := List.exists_cons_of_length_pos (Nat.lt_of_lt_of_le Nat.two_pos hlen)
      rw [hjoin]
      refine ⟨.logical hop (by simp) ?_ ?_, rfl, ?_⟩
      · exact List.forall_mem_append.mpr ⟨hes, List.forall_mem_singleton.mpr hright⟩
      · exact List.forall_mem_append.mpr ⟨hall, List.forall_mem_singleton.mpr hr⟩
      · simp [line, stepsOfAll_append, stepsOfAll]
    · have hnot : ∀ operands, l ≠ .logical op operands := by
        rintro operands rfl
        exact hchain rfl
      have hjoin : Expr.join op l r = .logical op [l, r] := foldl_join_of_ne hop hnot r []
      have hl' : Binds (op.precedence + 1) l := fun op' hop' => by
        have hle := le_of_lt_rightPrecedence (hleft op' hop')
        have hprec : op'.precedence ≠ op.precedence := fun heq =>
          hchain (eq_of_precedence hop heq ▸ hop')
        omega
      rw [hjoin]
      refine ⟨.logical hop (Nat.le_refl 2) ?_ ?_, rfl, ?_⟩
      · simpa using ⟨hl', hright⟩
      · simpa using ⟨hl, hr⟩
      · simp [line, stepsOfAll]

/-- The tree `t'` has the line of `t` with another step behind it, and binds as `t` and the new
operator do. -/
structure Grows (t : Expr) (op : BinaryOp) (a t' : Expr) : Prop where
  ordered : Ordered t'
  line_eq : t'.line = ⟨t.line.first, t.line.steps ++ [(op, a)]⟩
  binds : ∀ q ≤ op.precedence, Binds q t → Binds q t'

section

variable {op : BinaryOp} {a : Expr} (ha : a.operator? = none)

include ha

/-- An operator that the tree may stand to the left of takes the whole tree. -/
theorem grows_join {t : Expr} (h : Ordered t)
    (hleft : ∀ op' ∈ t.operator?, op.precedence < op'.rightPrecedence) :
    Grows t op a (join op t a) := by
  have hright : Binds op.rightPrecedence a := fun op' hop' => by simp [ha] at hop'
  obtain ⟨hordered, hroot, hline⟩ := h.join (.operand ha) hleft hright
  refine ⟨hordered, by rw [hline, line_of_operator? ha], fun q hq _ op' hop' => ?_⟩
  obtain rfl : op = op' := by simpa [hroot] using hop'
  exact hq

/-- A tighter operator takes a part of the right operand. -/
theorem grows_right {op' : BinaryOp} {l r : Expr} (h : Ordered (.binary op' l r))
    (hl : Ordered l) (hop : op'.isLogical = false)
    (hleft : ∀ op'' ∈ l.operator?, op'.precedence < op''.rightPrecedence)
    (hright : Binds op'.rightPrecedence r) (ih : ∃ r', Grows r op a r') :
    ∃ t', Grows (.binary op' l r) op a t' := by
  by_cases hlt : op.precedence < op'.rightPrecedence
  · exact ⟨_, grows_join ha h fun op'' hop'' => by cases hop''; exact hlt⟩
  · obtain ⟨r', hr'⟩ := ih
    refine ⟨.binary op' l r', ordered_binary hop hl hr'.ordered hleft ?_, ?_, fun q _ hq => hq⟩
    · exact hr'.binds _ (Nat.le_of_not_lt hlt) hright
    · simp [line, hr'.line_eq]

/-- A tighter operator takes a part of the last operand of a chain. -/
theorem grows_last {op' : BinaryOp} {init : List Expr} {last : Expr}
    (h : Ordered (.logical op' (init ++ [last]))) (hinit : init ≠ []) (hop : op'.isLogical = true)
    (hes : ∀ e ∈ init ++ [last], Binds (op'.precedence + 1) e)
    (hall : ∀ e ∈ init ++ [last], Ordered e) (ih : ∃ last', Grows last op a last') :
    ∃ t', Grows (.logical op' (init ++ [last])) op a t' := by
  have hne : op' ≠ .power := by
    rintro rfl
    cases hop
  by_cases hlt : op.precedence < op'.rightPrecedence
  · exact ⟨_, grows_join ha h fun op'' hop'' => by cases hop''; exact hlt⟩
  · rw [rightPrecedence_of_ne hne] at hlt
    obtain ⟨last', hlast⟩ := ih
    obtain ⟨first, init, rfl⟩ := List.exists_cons_of_ne_nil hinit
    obtain ⟨hesInit, hesLast⟩ := List.forall_mem_append.mp hes
    obtain ⟨hallInit, -⟩ := List.forall_mem_append.mp hall
    have hbinds := hlast.binds _ (Nat.le_of_not_lt hlt) (List.forall_mem_singleton.mp hesLast)
    refine ⟨.logical op' (first :: init ++ [last']), .logical hop (by simp) ?_ ?_, ?_,
      fun q _ hq => hq⟩
    · exact List.forall_mem_append.mpr ⟨hesInit, List.forall_mem_singleton.mpr hbinds⟩
    · exact List.forall_mem_append.mpr ⟨hallInit, List.forall_mem_singleton.mpr hlast.ordered⟩
    · simp [line, stepsOfAll_append, stepsOfAll, hlast.line_eq]

theorem Ordered.grows {t : Expr} (h : Ordered t) : ∃ t', Grows t op a t' := by
  induction h with
  | operand hnone => exact ⟨_, grows_join ha (.operand hnone) fun op' hop' => by simp [hnone] at hop'⟩
  | binary hop hne hl hr ol or ihl ihr =>
    exact grows_right ha (.binary hop hne hl hr ol or) ol hop
      (fun op' hop' => lt_rightPrecedence hne (hl op' hop')) (rightPrecedence_of_ne hne ▸ hr) ihr
  | power hl hr ol or ihl ihr =>
    refine grows_right ha (.power hl hr ol or) ol rfl (fun op' hop' => ?_) hr ihr
    exact Nat.lt_of_lt_of_le (hl op' hop') (le_rightPrecedence op')
  | @logical op' es hop hlen hes hall ih =>
    rcases List.eq_nil_or_concat es with rfl | ⟨init, last, rfl⟩
    · cases hlen
    · rw [List.concat_eq_append] at hlen hes hall ih ⊢
      have hinit : init ≠ [] := by
        rintro rfl
        simp at hlen
      exact grows_last ha (.logical hop hlen hes hall) hinit hop hes hall (ih last (by simp))

end

theorem Ordered.extend {t : Expr} (h : Ordered t) (steps : List (Step known)) :
    ∃ t', Ordered t' ∧ t'.line = ⟨t.line.first, t.line.steps ++ steps.map Step.entry⟩ := by
  induction steps generalizing t with
  | nil => exact ⟨t, h, by simp⟩
  | cons s steps ih =>
    have hgrows : ∃ t₁, Grows t s.op s.atom.operand t₁ := h.grows s.atom.operator?_operand
    obtain ⟨t₁, h₁⟩ := hgrows
    obtain ⟨t', ht', hline⟩ := ih h₁.ordered
    exact ⟨t', ht', by simp [hline, h₁.line_eq, Step.entry]⟩

/-! ## What is read -/

/-- What is read from names and literals with operators between them has them in this order, obeys
the table of precedences, and is the only tree that does both. -/
theorem ofText_sequence {first : Atom known} {steps : List (Step known)} {source : String}
    {text : TokenList} {e : Expr} (htext : Token.ofText source = .ok text)
    (hlexemes : lexemesOf text.tokens = first.lexemes ++ steps.flatMap Step.lexemes)
    (h : ofText known source = .ok e) :
    e.line = ⟨first.operand, steps.map Step.entry⟩ ∧ Ordered e ∧
      ∀ t, t.line = ⟨first.operand, steps.map Step.entry⟩ → Ordered t → t = e := by
  obtain ⟨text', need, htext', d, -⟩ := derives_of_ofText h
  obtain rfl : text = text' := Except.ok.inj (htext.symm.trans htext')
  rw [hlexemes] at d
  have hunique : ∀ t, t.line = ⟨first.operand, steps.map Step.entry⟩ → Ordered t → t = e := by
    intro t hline ht
    obtain ⟨n, dt⟩ := ht.derives hline
    exact (dt.unique d).1
  have hfirst := first.operator?_operand
  obtain ⟨t, ht, hline⟩ := (Ordered.operand hfirst).extend steps
  rw [line_of_operator? hfirst, List.nil_append] at hline
  obtain rfl := hunique t hline ht
  exact ⟨hline, ht, hunique⟩

/-- The variable `a` in a sequence. -/
def Atom.a : Atom known := ⟨[.name "a"], .name "a", .name rfl⟩

/-- The operator `op` with `a` behind it. -/
def Step.a (op : BinaryOp) : Step known :=
  ⟨op.spelling, op, BinaryOp.ofSpelling?_spelling op, .a⟩

/-- The tree of `a - a - a ** a ** a`. -/
def powers : Expr :=
  .binary .subtract (.binary .subtract (.name "a") (.name "a"))
    (.binary .power (.name "a") (.binary .power (.name "a") (.name "a")))

theorem lexed_powers : Lexed "a - a - a ** a ** a".toList
    [.name "a", .operator .minus, .name "a", .operator .minus, .name "a", .operator .doubleStar,
      .name "a", .operator .doubleStar, .name "a"] := by
  have hname : Operand (fun _ => false) 0 (.name "a") ['a'] [.name "a"] :=
    operand_name isReference_a
  have hlegible : Legible ['a'] [.name "a"] := hname.lexed
  have hstep (op : BinaryOp) {r : List Char} {ls : List Lexeme} (h : Lexed r ls) :
      Lexed ('a' :: ' ' :: (op.symbol.toList ++ ' ' :: r)) (.name "a" :: .operator op.spelling :: ls) :=
    hlegible (follows_binary op r) (Lexed.binary op h)
  exact hstep .subtract (hstep .subtract (hstep .power (hstep .power (hlegible (r := []) rfl .nil))))

theorem ofText_powers (known : String → Bool) :
    ofText known "a - a - a ** a ** a" = .ok powers := by
  have dprimary {p : Nat} {rest : List Lexeme} (h : Stops p rest) :
      Derives known .primary (.name "a" :: rest) (.name "a") rest 0 0 :=
    .name isReference_a.notConstant h.noCall (h.noAccess _)
  have dname {p : Nat} {rest : List Lexeme} (h : Stops p rest) :
      Derives known (.expression p) (.name "a" :: rest) (.name "a") rest 0 1 :=
    Derives.expression (dprimary h) h
  have hstops {p : Nat} (op : BinaryOp) (hp : op.precedence < p) (rest : List Lexeme) :
      Stops p (.operator op.spelling :: rest) := stops_operator hp rest
  have hspells := BinaryOp.ofSpelling?_spelling
  have dpower := Derives.operand (p := 200) (by decide)
    (dprimary (hstops (p := 501) .power (by decide) [.name "a"]))
    (.operator (hspells .power) (Nat.le_refl 200) (dname (stops_nil 200))
      (.noOperator (stops_nil 200).noOperator))
  have dright := Derives.operand (p := 31) (by decide)
    (dprimary (hstops (p := 501) .power (by decide) _))
    (.operator (hspells .power) (by decide) dpower (.noOperator (stops_nil 31).noOperator))
  have dleft := dname (hstops (p := 31) .subtract (by decide)
    [.name "a", .operator .doubleStar, .name "a", .operator .doubleStar, .name "a"])
  have d := Derives.full (dprimary (hstops (p := 501) .subtract (by decide) _))
    (.operator (hspells .subtract) (Nat.zero_le _) dleft
      (.operator (hspells .subtract) (Nat.zero_le _) dright (.noOperator (stops_nil 0).noOperator)))
    (.noChoice ((stops_nil 0).noChoice rfl))
  exact (ofText_of_lexed lexed_powers d).1 (by decide)

/-- Differences are taken from the left and powers from the right. -/
theorem ofText_sequence_powers :
    ofText (fun _ => false) "a - a - a ** a ** a" = .ok powers ∧
      powers.line = ⟨.name "a", [(.subtract, .name "a"), (.subtract, .name "a"),
        (.power, .name "a"), (.power, .name "a")]⟩ ∧ Ordered powers ∧
      ∀ t, t.line = powers.line → Ordered t → t = powers := by
  have hread := ofText_powers fun _ => false
  obtain ⟨text, htext, hlexemes⟩ := lexed_powers.scan_eq 0
  obtain ⟨hline, hordered, hunique⟩ := @ofText_sequence (fun _ => false) .a
    [.a .subtract, .a .subtract, .a .power, .a .power] _ text powers htext hlexemes hread
  exact ⟨hread, hline, hordered, fun t ht => hunique t (ht.trans hline)⟩

end Criteria.Expr
