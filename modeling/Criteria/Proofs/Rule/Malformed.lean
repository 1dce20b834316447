import Criteria.Proofs.Expr.Failure
import Criteria.Proofs.Rule.Place

/-!
# How trees of rules fail

A value that is no tree of rules, and a tree that cannot be compiled, give errors of one
kind: a flaw at a place of the tree. For what is read that is part of what is known of its
place; a tree that was not read fails in the same way.
-/

namespace Criteria

/-- The error is a flaw at a place of the tree of rules. -/
def RuleError.IsFlaw (e : RuleError) : Prop := ∃ path flaw, e = .malformed (.rule path flaw)

theorem Reports.isFlaw {ε α : Type} {P : ε → Prop} {es : List (Path × ε)}
    {x : Except RuleError α} (h : Reports P es x) : FailsOnly RuleError.IsFlaw x where
  of_error err herr := by
    obtain ⟨e, flaw, hmessage, -⟩ := h.first err herr
    exact ⟨e.1, flaw, hmessage⟩

theorem RuleGroup.isFlaw_ofValue (v : Value) : FailsOnly RuleError.IsFlaw (RuleGroup.ofValue v) :=
  (Rule.reports_readGroup [] v).isFlaw

/-! ## Compiling -/

theorem Leaf.isFlaw_compile (o : CompileOptions) (path : Path) (l : Leaf) :
    FailsOnly RuleError.IsFlaw (l.compile o path) :=
  (l.reports_compile o path (P := fun _ => ¬ l.Fits) (e := ()) Iff.rfl).isFlaw

namespace Rule

variable (o : CompileOptions)

mutual

theorem isFlaw_compile (path : Path) (r : Rule) :
    FailsOnly RuleError.IsFlaw (r.compile o path) := by
  cases r with
  | leaf l =>
    rw [compile]
    exact l.isFlaw_compile o path
  | group c rules =>
    rw [compile]
    exact (isFlaw_compileGroup path c rules).bind fun s => .ok _

theorem isFlaw_compileGroup (path : Path) (c : Connective) (rules : List Rule) :
    FailsOnly RuleError.IsFlaw (compileGroup o path c rules) := by
  cases rules with
  | nil =>
    rw [compileGroup]
    exact .error ⟨path, .emptyGroup, rfl⟩
  | cons r rules =>
    rw [compileGroup]
    exact (isFlaw_compileAll path 0 (r :: rules)).bind fun parts => .ok _

theorem isFlaw_compileAll (path : Path) (index : Nat) (rules : List Rule) :
    FailsOnly RuleError.IsFlaw (compileAll o path index rules) := by
  cases rules with
  | nil =>
    rw [compileAll]
    exact .ok _
  | cons r rules =>
    rw [compileAll]
    refine (isFlaw_compile (path ++ [index]) r).bind fun part => ?_
    exact (isFlaw_compileAll path (index + 1) rules).bind fun parts => .ok _

end

end Rule

theorem RuleGroup.isFlaw_compile (o : CompileOptions) (g : RuleGroup) :
    FailsOnly RuleError.IsFlaw (g.compile o) :=
  Rule.isFlaw_compileGroup o [] g.connective g.rules

end Criteria
