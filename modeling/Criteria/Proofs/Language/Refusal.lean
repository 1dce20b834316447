import Mathlib.Control.Monad.Basic
import Criteria.Proofs.Expr.Failure
import Criteria.Proofs.Language.Lint

/-!
# Errors of texts and errors of values

An evaluation can fail since the text is none of the language, or since the values do not
fit. Which of the two it was is seen from the error: the first sort is exactly what reading
the text gives. An unknown function belongs to it although the evaluation looks functions up
once more, because every function of a tree was known when the tree was read, and is known
ever after.

Nothing is claimed where a function returns an error of the first sort by itself.
-/

namespace Criteria

/-- Whatever is wrong with a text can be seen without values. -/
theorem Expr.isSyntax_of_ofText {known : String → Bool} {source : String} {e : ExprError}
    (h : ofText known source = .error e) : e.isSyntax = true := by
  unfold ofText tokens at h
  cases htext : Token.ofText source with
  | error obstacle =>
    simp only [htext] at h
    cases h
    rfl
  | ok text =>
    simp only [htext] at h
    cases htokens : ofTokens known text with
    | error refusal => cases refusal <;> simp only [htokens] at h <;> cases h <;> rfl
    | ok root =>
      rw [htokens] at h
      cases h

theorem ExprError.isSyntax_of_not_isStatic (e : ExprError) (h : e.isStatic = false) :
    e.isSyntax = false := by
  cases e <;> first | rfl | cases h

namespace Language

variable {start l : Language}

/-- What is read from a text gives no error about the text, under any variables. -/
theorem avoids_eval_of_ofText
    (hfunctions : ∀ f ∈ l.functions, ∀ vars arguments,
      Avoids ExprError.isSyntax (f.call vars arguments))
    {source : String} {root : Expr}
    (hroot : Expr.ofText (Function.isKnown l.functions) source = .ok root) (vars : Record) :
    Avoids ExprError.isSyntax (root.eval l.functions vars) := by
  have hregular := Expr.regular_of_ofText hroot
  exact Expr.avoids_eval ExprError.isSyntax_of_not_isStatic hfunctions hregular fun _ _ _ => rfl

/-- Whatever was asked of a language before, an evaluation gives an error about the text
if and only if the text is not read, and then it is the error of reading it. -/
theorem evaluate_refused_iff (hempty : start.cache.size = 0) (hl : start.Becomes l)
    (hfunctions : ∀ f ∈ l.functions, ∀ vars arguments,
      Avoids ExprError.isSyntax (f.call vars arguments))
    (source : String) (vars : Record) (e : ExprError) :
    (l.evaluate source vars).1 = .error e ∧ e.isSyntax = true ↔
      (l.parse source).1 = .error e := by
  have hfaithful : l.Faithful := hl.faithful (.of_size_eq_zero hempty)
  rw [evaluate, withParsed_eq, parse_eq_read hfaithful, read]
  cases hroot : Expr.ofText (Function.isKnown l.functions) source with
  | error refusal =>
    constructor
    · intro h
      cases h.1
      rfl
    · intro hread
      cases hread
      exact ⟨rfl, Expr.isSyntax_of_ofText hroot⟩
  | ok root =>
    constructor
    · intro h
      obtain ⟨hvalue, hsyntax⟩ := h
      have hother := (avoids_eval_of_ofText hfunctions hroot vars).of_error e hvalue
      rw [hother] at hsyntax
      cases hsyntax
    · intro hread
      cases hread

/-- The language knows `echo` and no function `size`. -/
theorem parse_size :
    (sharing.parse "echo(a) + size(a)").1 = .error (.undefinedFunction "size") := by
  have hread : (Expr.ofText (Function.isKnown [Expr.echo]) "echo(a) + size(a)").map (fun _ => ()) =
      .error (.undefinedFunction "size") := by
    decide +kernel
  have hknown : sharing.functions = [Expr.echo] := rfl
  rw [parse_eq_read faithful_sharing, read, hknown]
  cases hroot : Expr.ofText (Function.isKnown [Expr.echo]) "echo(a) + size(a)" with
  | error e =>
    rw [hroot] at hread
    cases hread
    rfl
  | ok root =>
    rw [hroot] at hread
    cases hread

theorem evaluate_refused_sharing :
    (sharing.evaluate "echo(a) + size(a)" [("a", .null)]).1 = .error (.undefinedFunction "size") ∧
      (ExprError.undefinedFunction "size").isSyntax = true := by
  have hfunctions : ∀ f ∈ sharing.functions, ∀ vars arguments,
      Avoids ExprError.isSyntax (f.call vars arguments) :=
    List.forall_mem_singleton.mpr fun _ _ => .ok _
  exact (evaluate_refused_iff rfl becomes_sharing hfunctions _ _ _).mpr parse_size

end Language

end Criteria
