import Criteria.Expr.Eval
import Criteria.Proofs.Expr.Printing

/-!
# The errors of evaluation

Some errors can be seen without any values: a fault in the text, a name that stands for
nothing. An operation on values gives none of these, so an evaluation gives one only where
a name of the tree is missing or a function returns it. This holds of each sort of them by
itself, also where other ones occur: `avoids_eval` is about any errors that operations on
values do not give.
-/

namespace Criteria

/-- The result is a value, or an error with the property `P`. -/
structure FailsOnly {ε : Type} (P : ε → Prop) {α : Type} (x : Except ε α) : Prop where
  of_error : ∀ e, x = .error e → P e

namespace FailsOnly

variable {ε α β : Type} {P Q : ε → Prop}

theorem ok (a : α) : FailsOnly P (.ok a) where
  of_error _ h := nomatch h

theorem error {e : ε} (h : P e) : FailsOnly P (.error e : Except ε α) where
  of_error _ he := by
    cases he
    exact h

theorem bind {x : Except ε α} {f : α → Except ε β} (hx : FailsOnly P x)
    (hf : ∀ a, FailsOnly P (f a)) : FailsOnly P (x >>= f) := by
  cases x with
  | error e => exact error (hx.of_error e rfl)
  | ok a => exact hf a

theorem imp {x : Except ε α} (hx : FailsOnly P x) (h : ∀ e, P e → Q e) : FailsOnly Q x where
  of_error e he := h e (hx.of_error e he)

end FailsOnly

/-- Whether the error is about a text or a name in it. -/
def ExprError.isStatic : ExprError → Bool
  | .fault .. | .undefinedVariable _ | .undefinedFunction _ => true
  | _ => false

/-- The result is none of the errors `bad`. -/
abbrev Avoids (bad : ExprError → Bool) {α : Type} (x : Except ExprError α) : Prop :=
  FailsOnly (bad · = false) x

/-- The result is no error about a text or a name. -/
abbrev Clean {α : Type} (x : Except ExprError α) : Prop :=
  Avoids ExprError.isStatic x

/-! ## Operations on values -/

theorem clean_mismatch {α : Type} (operator : String) (l r : Value) :
    Clean (mismatch operator l r : Except ExprError α) :=
  .error rfl

theorem UnaryOp.clean_apply (op : UnaryOp) (v : Value) : Clean (op.apply v) := by
  cases op with
  | not => exact .ok _
  | negate | plus =>
    unfold apply
    cases v.operand? with
    | none => exact .error rfl
    | some n => cases n <;> exact .ok _

namespace BinaryOp

variable (operator : String) (l r : Value)

theorem clean_compareAs : Clean (compareAs operator l r) := by
  unfold compareAs
  split
  · exact .ok _
  · exact clean_mismatch ..

theorem clean_isMember : Clean (isMember operator l r) := by
  unfold isMember
  split
  · exact .ok _
  · exact .ok _
  · exact clean_mismatch ..

theorem clean_onTexts {α : Type} {f : String → String → Except ExprError α}
    (hf : ∀ s t, Clean (f s t)) : Clean (onTexts operator f l r) := by
  unfold onTexts
  split
  · exact hf ..
  · exact clean_mismatch ..

theorem clean_onNumbers {α : Type} {f : Numeric → Numeric → Except ExprError α}
    (hf : ∀ a b, Clean (f a b)) : Clean (onNumbers operator f l r) := by
  unfold onNumbers
  split
  · exact hf ..
  · exact clean_mismatch ..

theorem clean_rangeOf : Clean (rangeOf l r) := by
  unfold rangeOf
  split
  · simp only []
    split
    · exact .error rfl
    · exact .ok _
  · exact clean_mismatch ..

theorem clean_apply (op : BinaryOp) : Clean (op.apply l r) := by
  cases op with
  | or | and | coalesce | equal | notEqual | identical | notIdentical => exact .ok _
  | less | greater | lessOrEqual | greaterOrEqual =>
    exact (clean_compareAs ..).bind fun _ => .ok _
  | member | notMember => exact (clean_isMember ..).bind fun _ => .ok _
  | fitsPattern =>
    refine clean_onTexts _ _ _ fun s t => ?_
    split
    · exact .ok _
    · exact .error rfl
  | contains | startsWith | endsWith | concat => exact clean_onTexts _ _ _ fun _ _ => .ok _
  | range => exact clean_rangeOf l r
  | bitOr | bitXor | bitAnd | add | subtract | multiply | power =>
    exact clean_onNumbers _ _ _ fun _ _ => .ok _
  | divide | modulo =>
    refine clean_onNumbers _ _ _ fun a b => ?_
    split
    · exact .error rfl
    · exact .ok _

end BinaryOp

namespace Expr

theorem clean_member (target key : Value) (kind : AccessKind) : Clean (member target key kind) := by
  unfold member
  split
  · split
    · exact .ok _
    · exact .error rfl
  · split
    · exact .ok _
    · exact .error rfl
  · exact .error rfl

/-! ## Trees -/

variable {functions : List Function} {vars : Record} {bad : ExprError → Bool}

theorem avoids_evalAll {es : List Expr} (h : ∀ e ∈ es, Avoids bad (eval functions vars e)) :
    Avoids bad (evalAll functions vars es) := by
  induction es with
  | nil => exact .ok []
  | cons e es ih =>
    rw [evalAll]
    refine (h e (List.mem_cons_self ..)).bind fun v => ?_
    exact (ih fun e he => h e (List.mem_cons_of_mem _ he)).bind fun vs => .ok _

theorem avoids_evalEntries {es : List (String × Expr)}
    (h : ∀ p ∈ es, Avoids bad (eval functions vars p.2)) (done : Record) :
    Avoids bad (evalEntries functions vars done es) := by
  induction es generalizing done with
  | nil => exact .ok done
  | cons p es ih =>
    obtain ⟨k, e⟩ := p
    rw [evalEntries]
    refine (h (k, e) (List.mem_cons_self ..)).bind fun v => ?_
    exact ih (fun p hp => h p (List.mem_cons_of_mem _ hp)) _

theorem avoids_evalChain {es : List Expr} (h : ∀ e ∈ es, Avoids bad (eval functions vars e))
    (decisive : Bool) : Avoids bad (evalChain functions vars decisive es) := by
  induction es with
  | nil => exact .ok _
  | cons e es ih =>
    rw [evalChain]
    refine (h e (List.mem_cons_self ..)).bind fun v => ?_
    split
    · exact .ok _
    · exact ih fun e he => h e (List.mem_cons_of_mem _ he)

/-- Operators that make no chains evaluate both operands, but for the one that goes on
where its left operand is missing. -/
theorem eval_binary_of_not_isLogical {op : BinaryOp} (hop : op.isLogical = false)
    (hc : op ≠ .coalesce) (l r : Expr) :
    eval functions vars (.binary op l r) = (do
      let a ← eval functions vars l
      let b ← eval functions vars r
      op.apply a b) := by
  cases op <;> first | exact absurd hop (by decide) | exact absurd rfl hc | (rw [eval] <;> simp)

theorem kept?_eq_some {x result : Except ExprError Value} (h : kept? x = some result) :
    result = x := by
  unfold kept? at h
  split at h <;> cases h
  rfl

theorem avoids_binary (hbad : ∀ e, e.isStatic = false → bad e = false) {op : BinaryOp}
    (hop : op.isLogical = false) {l r : Expr} (hl : Avoids bad (eval functions vars l))
    (hr : Avoids bad (eval functions vars r)) :
    Avoids bad (eval functions vars (.binary op l r)) := by
  by_cases hc : op = .coalesce
  · subst hc
    rw [eval]
    split
    · next result hkept =>
      rw [kept?_eq_some hkept]
      exact hl
    · exact hr
  · rw [eval_binary_of_not_isLogical hop hc]
    exact hl.bind fun a => hr.bind fun b => (op.clean_apply a b).imp hbad

theorem names_of_mem_all {es : List Expr} {e : Expr} (he : e ∈ es) {n : String} (hn : n ∈ e.names) :
    n ∈ namesOfAll es := by
  induction es with
  | nil => cases he
  | cons e' es ih =>
    rw [namesOfAll, List.mem_append]
    rcases List.mem_cons.mp he with rfl | he
    · exact .inl hn
    · exact .inr (ih he)

theorem names_of_mem_entries {es : List (String × Expr)} {p : String × Expr} (hp : p ∈ es)
    {n : String} (hn : n ∈ p.2.names) : n ∈ namesOfEntries es := by
  induction es with
  | nil => cases hp
  | cons p' es ih =>
    rw [namesOfEntries, List.mem_append]
    rcases List.mem_cons.mp hp with rfl | hp
    · exact .inl hn
    · exact .inr (ih hp)

/-- Where the functions of a tree are known, it gives one of some errors about a text or a
name only if a function does or a name in it is missing. -/
theorem avoids_eval (hbad : ∀ e, e.isStatic = false → bad e = false)
    (hf : ∀ f ∈ functions, ∀ vars arguments, Avoids bad (f.call vars arguments)) {e : Expr}
    (h : Regular (Function.isKnown functions) e)
    (hn : ∀ n ∈ e.names, vars.lookup n = none → bad (.undefinedVariable n) = false) :
    Avoids bad (eval functions vars e) := by
  induction h with
  | const _ =>
    rw [eval]
    exact .ok _
  | @name n _ =>
    rw [eval]
    split
    · exact .ok _
    · next hmissing => exact .error (hn n (List.mem_singleton_self n) hmissing)
  | array _ ih =>
    rw [eval]
    have hall := avoids_evalAll fun e he => ih e he fun n hmem => hn n (names_of_mem_all he hmem)
    exact hall.bind fun _ => .ok _
  | hash _ ih =>
    rw [eval]
    have hall := avoids_evalEntries (fun p hp => ih p hp fun n hmem =>
      hn n (names_of_mem_entries hp hmem)) []
    exact hall.bind fun _ => .ok _
  | @unary op e _ ih =>
    rw [eval]
    exact (ih hn).bind fun v => (op.clean_apply v).imp hbad
  | binary hop _ _ ihl ihr =>
    simp only [names, List.forall_mem_append] at hn
    exact avoids_binary hbad hop (ihl hn.1) (ihr hn.2)
  | @logical op first second es _ _ _ _ _ ih₁ ih₂ ih =>
    rw [eval]
    have hall : ∀ e ∈ first :: second :: es, Avoids bad (eval functions vars e) := by
      have hmem : ∀ e ∈ first :: second :: es, ∀ n ∈ e.names,
          vars.lookup n = none → bad (.undefinedVariable n) = false :=
        fun e he n hmem => hn n (names_of_mem_all he hmem)
      simp only [List.forall_mem_cons] at hmem ⊢
      exact ⟨ih₁ hmem.1, ih₂ hmem.2.1, fun e he => ih e he (hmem.2.2 e he)⟩
    exact (avoids_evalChain hall _).bind fun _ => .ok _
  | conditional _ _ _ ihc ihy ihn =>
    simp only [names, List.forall_mem_append] at hn
    rw [eval]
    refine (ihc hn.1.1).bind fun v => ?_
    split
    · exact ihy hn.1.2
    · exact ihn hn.2
  | call _ hk _ ih =>
    rw [eval]
    obtain ⟨f, hmem, hfind, -⟩ := find?_of_isKnown hk
    have hall := avoids_evalAll fun e he => ih e he fun n hmem => hn n (names_of_mem_all he hmem)
    rw [hfind]
    exact hall.bind fun arguments => hf f hmem vars arguments
  | property _ _ ih =>
    simp only [names, List.append_nil] at hn
    rw [eval]
    refine (ih hn).bind fun v => ?_
    rw [eval]
    exact (FailsOnly.ok _).bind fun k => (clean_member v k .property).imp hbad
  | index _ _ ih ihk =>
    simp only [names, List.forall_mem_append] at hn
    rw [eval]
    exact (ih hn.1).bind fun v => (ihk hn.2).bind fun k => (clean_member ..).imp hbad

/-- Where the names of a tree are defined and its functions known, only a function can give
an error about a text or a name. -/
theorem clean_eval
    (hf : ∀ f ∈ functions, ∀ vars arguments, Clean (f.call vars arguments)) {e : Expr}
    (h : Regular (Function.isKnown functions) e)
    (hn : ∀ n ∈ e.names, (vars.lookup n).isSome = true) : Clean (eval functions vars e) := by
  have hpresent : ∀ n ∈ e.names, vars.lookup n = none →
      (ExprError.undefinedVariable n).isStatic = false := by
    intro n hmem hmissing
    have hsome := hn n hmem
    rw [hmissing] at hsome
    cases hsome
  exact avoids_eval (fun _ he => he) hf h hpresent

end Expr

end Criteria
