import Criteria.Proofs.Expr.Failure
import Criteria.Proofs.Expr.Nesting
import Criteria.Proofs.Language.History

/-!
# What a lint promises

A text that passes the lint with some names can be evaluated at any later time with values
for these names: it is not refused, and no name in it is missing. This is so although the
functions may have changed by then, since none is ever taken away.

It is not so for a language that shares its cache with one that knows more functions: the
lint passes a text that the other one left in the cache, and the evaluation does not find
the function. Nor does a lint look at what functions do: one of them may itself return an
error about a text or a name.
-/

namespace Criteria.Language

/-- What passed the lint was read, and refers to no other names. -/
theorem ok_of_lint {l : Language} (h : l.Faithful) {source : String} {names : List String}
    (hlint : (l.lint source names).1 = .ok ()) :
    ∃ root, Expr.ofText (Function.isKnown l.functions) source = .ok root ∧
      ∀ n ∈ root.names, n ∈ names := by
  cases hroot : Expr.ofText (Function.isKnown l.functions) source with
  | error e =>
    rw [lint, withParsed_eq, parse_eq_read h, read, hroot] at hlint
    cases hlint
  | ok root =>
    refine ⟨root, rfl, fun n hn => ?_⟩
    rw [lint, withParsed_of_ofText h hroot] at hlint
    cases hfind : root.variables.find? (!names.contains ·) with
    | some name =>
      rw [hfind] at hlint
      cases hlint
    | none =>
      have hall := List.find?_eq_none.mp hfind n (List.mem_eraseDups.mpr hn)
      simpa using hall

variable {start l m : Language}

/-- After a lint that passed, an evaluation with values for the names gives no error about
the text or a name in it, whatever was asked in between. -/
theorem evaluate_of_lint (hempty : start.cache.size = 0) (hl : start.Becomes l)
    {source : String} {names : List String} (hlint : (l.lint source names).1 = .ok ())
    (hm : (l.lint source names).2.Becomes m)
    (hfunctions : ∀ f ∈ m.functions, ∀ vars arguments, Clean (f.call vars arguments))
    {vars : Record} (hvars : ∀ n ∈ names, (vars.lookup n).isSome = true) :
    Clean (m.evaluate source vars).1 := by
  have hlinted : l.Faithful := hl.faithful (.of_size_eq_zero hempty)
  obtain ⟨root, hroot, hnames⟩ := ok_of_lint hlinted hlint
  have hafter : (l.lint source names).2.Faithful := hlinted.perform (.lint source names)
  have hknown : ∀ s, Function.isKnown l.functions s = true →
      Function.isKnown m.functions s = true :=
    fun s hs => hm.isKnown (isKnown_perform (.lint source names) hs)
  have hlater := Expr.ofText_mono hknown hroot
  rw [evaluate, withParsed_of_ofText (hm.faithful hafter) hlater]
  exact Expr.clean_eval hfunctions (Expr.regular_of_ofText hlater)
    fun n hn => hvars n (hnames n hn)

/-- A language that knows `echo`, with what another one without functions left in its
cache. -/
def sharing : Language :=
  ⟨[Expr.echo], ((⟨[], .standard⟩ : Language).perform (.parse "a")).2.cache⟩

/-- The tree of `(echo(a) + 1)`. -/
def echoName : Expr := .binary .add (.call "echo" [.name "a"]) (.const Numeric.one.toValue)

theorem ofText_echoName :
    Expr.ofText (Function.isKnown [Expr.echo]) "(echo(a) + 1)" = .ok echoName := by
  have hcall : Expr.Prints (Function.isKnown [Expr.echo]) (.call "echo" [.name "a"])
      "echo(a)".toList _ :=
    Expr.prints_call Expr.isReference_echo rfl (.cons (Expr.prints_name Expr.isReference_a) .nil)
  have hone : Expr.Prints (Function.isKnown [Expr.echo]) (.const Numeric.one.toValue) ['1'] _ :=
    Expr.prints_constant (l := .number .one) rfl fun _ => spells_nat (n := 1) (by decide)
  have hadd : BinaryOp.add.isLogical = false := rfl
  have hsum : Expr.Prints (Function.isKnown [Expr.echo]) echoName "(echo(a) + 1)".toList _ :=
    (Expr.prints_binary hadd hcall hone).prints
  exact hsum.ofText_eq.1 (by decide)

theorem becomes_sharing : (⟨[Expr.echo], .standard⟩ : Language).Becomes sharing :=
  .share (.parse "a") (by simp [Function.isKnown]) .refl

theorem faithful_sharing : sharing.Faithful :=
  becomes_sharing.faithful (.of_size_eq_zero rfl)

theorem lint_sharing : (sharing.lint "(echo(a) + 1)" ["a"]).1 = .ok () := by
  rw [lint, withParsed_of_ofText faithful_sharing ofText_echoName]
  rfl

theorem evaluate_of_lint_sharing :
    (sharing.lint "(echo(a) + 1)" ["a"]).1 = .ok () ∧
      Clean (((sharing.lint "(echo(a) + 1)" ["a"]).2.perform .clear).2.evaluate "(echo(a) + 1)"
        [("a", .null)]).1 := by
  refine ⟨lint_sharing, evaluate_of_lint rfl becomes_sharing lint_sharing (.perform .clear .refl)
    (fun f hf vars arguments => ?_) (List.forall_mem_singleton.mpr rfl)⟩
  obtain rfl : f = Expr.echo := by
    simpa [perform, lint, withParsed_eq, functions_parse, sharing] using hf
  exact .ok _

/-! ## Where nothing is promised -/

/-- A language without functions that shares its cache with one that knows `echo`. -/
def borrowing : Language :=
  ⟨[], ((⟨[Expr.echo], .standard⟩ : Language).parse "echo(1) + 1").2.cache⟩

/-- A language whose function `echo` refuses its arguments as a reader refuses a text. -/
def refusing : Language :=
  ⟨[⟨"echo", Function.renderCall "echo", fun _ _ => .error (.fault .tooDeep 0 "")⟩], .standard⟩

/-- A lint takes a text from the cache that cannot be evaluated, and it says nothing of a
function that is known but fails. -/
theorem lint_not_enough :
    ((borrowing.lint "echo(1) + 1" []).1 = .ok () ∧
      ((borrowing.lint "echo(1) + 1" []).2.evaluate "echo(1) + 1" []).1 =
        .error (.undefinedFunction "echo")) ∧
    ((refusing.lint "echo(1) + 1" []).1 = .ok () ∧
      ((refusing.lint "echo(1) + 1" []).2.evaluate "echo(1) + 1" []).1 =
        .error (.fault .tooDeep 0 "")) := by
  constructor
  · have hkept : borrowing.cache.get? "echo(1) + 1" = some ⟨"echo(1) + 1", Expr.echoSum⟩ := by
      have hempty : (Cache.standard).get? "echo(1) + 1" = none := rfl
      simp only [borrowing, parse, hempty, Expr.ofText_echoSum]
      rfl
    have hparse : borrowing.parse "echo(1) + 1" =
        (.ok ⟨"echo(1) + 1", Expr.echoSum⟩, borrowing) := by
      simp only [parse, hkept]
    simp only [lint, evaluate, withParsed_eq, hparse]
    exact ⟨rfl, rfl⟩
  · have hread : Expr.ofText (Function.isKnown refusing.functions) "echo(1) + 1" =
        .ok Expr.echoSum := Expr.ofText_echoSum
    have hfaithful : refusing.Faithful := .of_size_eq_zero rfl
    have hafter : (refusing.lint "echo(1) + 1" []).2.Faithful :=
      hfaithful.perform (.lint "echo(1) + 1" [])
    have hfunctions : (refusing.lint "echo(1) + 1" []).2.functions = refusing.functions := by
      simp only [lint, withParsed_eq, functions_parse]
    constructor
    · rw [lint, withParsed_of_ofText hfaithful hread]
      rfl
    · rw [evaluate, withParsed_of_ofText hafter (hfunctions ▸ hread), hfunctions]
      rfl

end Criteria.Language
