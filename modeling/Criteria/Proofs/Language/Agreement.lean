import Criteria.Proofs.Language.Lint

/-!
# What an evaluation looks at

An evaluation looks up the names of its expression and no others: under two records that
agree on these it ends in the same way, be it with a value or with an error. This holds of
every tree, also of the parts that one of the evaluations skips.

Functions may look at the variables too. Nothing is claimed of those that do.
-/

namespace Criteria

/-- The meaning of a call does not depend on the variables. -/
def Function.IgnoresVariables (f : Function) : Prop :=
  ∀ (vars vars' : Record) (arguments : List Value), f.call vars arguments = f.call vars' arguments

/-- Two records give the same to each of some names: the same value, or none. -/
def Record.Agree (vars vars' : Record) (names : List String) : Prop :=
  ∀ n ∈ names, vars.lookup n = vars'.lookup n

variable {functions : List Function} {vars vars' : Record}

theorem Record.agree_append {names names' : List String} :
    Agree vars vars' (names ++ names') ↔ Agree vars vars' names ∧ Agree vars vars' names' :=
  List.forall_mem_append

namespace Expr

/-- An operator sees of its operands no more than how they end. -/
theorem eval_binary_congr (op : BinaryOp) {l r : Expr}
    (hl : eval functions vars l = eval functions vars' l)
    (hr : eval functions vars r = eval functions vars' r) :
    eval functions vars (.binary op l r) = eval functions vars' (.binary op l r) := by
  cases op <;> simp only [eval, hl, hr]

mutual

theorem eval_of_agree (hf : ∀ f ∈ functions, f.IgnoresVariables) (e : Expr)
    (h : Record.Agree vars vars' e.names) :
    eval functions vars e = eval functions vars' e := by
  cases e with
  | const v => rw [eval, eval]
  | name n => rw [eval, eval, h n (List.mem_singleton_self n)]
  | array items => rw [eval, eval, evalAll_of_agree hf items h]
  | hash entries => rw [eval, eval, evalEntries_of_agree hf entries h]
  | unary op e => rw [eval, eval, eval_of_agree hf e h]
  | binary op l r =>
    obtain ⟨hl, hr⟩ := Record.agree_append.mp h
    exact eval_binary_congr op (eval_of_agree hf l hl) (eval_of_agree hf r hr)
  | logical op operands => rw [eval, eval, evalChain_of_agree hf operands h]
  | conditional c yes no =>
    obtain ⟨h, hno⟩ := Record.agree_append.mp h
    obtain ⟨hc, hyes⟩ := Record.agree_append.mp h
    rw [eval, eval, eval_of_agree hf c hc, eval_of_agree hf yes hyes, eval_of_agree hf no hno]
  | call function arguments =>
    -- The one place where the record itself is handed on: to the function, with its arguments.
    rw [eval, eval, evalAll_of_agree hf arguments h]
    cases hfind : Function.find? functions function with
    | none => rfl
    | some f =>
      have hcall := hf f (List.mem_of_find?_eq_some hfind) vars vars'
      simp only [hcall]
  | access target key kind =>
    obtain ⟨htarget, hkey⟩ := Record.agree_append.mp h
    rw [eval, eval, eval_of_agree hf target htarget, eval_of_agree hf key hkey]

theorem evalAll_of_agree (hf : ∀ f ∈ functions, f.IgnoresVariables) (es : List Expr)
    (h : Record.Agree vars vars' (namesOfAll es)) :
    evalAll functions vars es = evalAll functions vars' es := by
  cases es with
  | nil => rfl
  | cons e es =>
    obtain ⟨he, hes⟩ := Record.agree_append.mp h
    rw [evalAll, evalAll, eval_of_agree hf e he, evalAll_of_agree hf es hes]

theorem evalEntries_of_agree (hf : ∀ f ∈ functions, f.IgnoresVariables)
    (es : List (String × Expr)) (h : Record.Agree vars vars' (namesOfEntries es)) {done : Record} :
    evalEntries functions vars done es = evalEntries functions vars' done es := by
  cases es with
  | nil => rfl
  | cons p es =>
    obtain ⟨k, e⟩ := p
    obtain ⟨he, hes⟩ := Record.agree_append.mp h
    simp only [evalEntries, eval_of_agree hf e he, evalEntries_of_agree hf es hes]

theorem evalChain_of_agree (hf : ∀ f ∈ functions, f.IgnoresVariables) (es : List Expr)
    (h : Record.Agree vars vars' (namesOfAll es)) {decisive : Bool} :
    evalChain functions vars decisive es = evalChain functions vars' decisive es := by
  cases es with
  | nil => rfl
  | cons e es =>
    obtain ⟨he, hes⟩ := Record.agree_append.mp h
    rw [evalChain, evalChain, eval_of_agree hf e he, evalChain_of_agree hf es hes]

end

end Expr

/-- Where duplicates are taken out, none is left. -/
theorem nodup_eraseDups (names : List String) : names.eraseDups.Nodup := by
  match names with
  | [] => exact List.nodup_nil
  | n :: names =>
    rw [List.eraseDups_cons, List.nodup_cons]
    refine ⟨fun hn => ?_, nodup_eraseDups (names.filter fun m => !m == n)⟩
    have hmem := List.mem_filter.mp (List.mem_eraseDups.mp hn)
    simp at hmem
termination_by names.length
decreasing_by exact Nat.lt_succ_of_le (List.length_filter_le _ _)

namespace Language

/-- The variables of what was read are listed once each, and no other variable has an
influence on an evaluation. -/
theorem evaluate_of_agree {l : Language} (hf : ∀ f ∈ l.functions, f.IgnoresVariables)
    {source : String} {parsed : Parsed} (h : (l.parse source).1 = .ok parsed) :
    parsed.root.variables.Nodup ∧
      ∀ vars vars' : Record, Record.Agree vars vars' parsed.root.variables →
        (l.evaluate source vars).1 = (l.evaluate source vars').1 := by
  refine ⟨nodup_eraseDups _, fun vars vars' hagree => ?_⟩
  have hnames : Record.Agree vars vars' parsed.root.names :=
    fun n hn => hagree n (List.mem_eraseDups.mpr hn)
  rw [evaluate, evaluate, withParsed_eq, withParsed_eq, h]
  exact Expr.eval_of_agree hf parsed.root hnames

/-- A language that knows `echo`, which looks at its arguments only, and keeps nothing yet. -/
def echoing : Language := ⟨[Expr.echo], .standard⟩

theorem evaluate_of_agree_echoing :
    echoName.variables.Nodup ∧
      (echoing.evaluate "(echo(a) + 1)" [("a", .null)]).1 =
        (echoing.evaluate "(echo(a) + 1)" [("a", .null), ("b", .bool true)]).1 := by
  have hf : ∀ f ∈ echoing.functions, f.IgnoresVariables :=
    List.forall_mem_singleton.mpr fun _ _ _ => rfl
  have hfaithful : echoing.Faithful := .of_size_eq_zero rfl
  have hparse : (echoing.parse "(echo(a) + 1)").1 = .ok ⟨"(echo(a) + 1)", echoName⟩ := by
    rw [parse_eq_read hfaithful, read, echoing, ofText_echoName]
    rfl
  obtain ⟨hnodup, heval⟩ := evaluate_of_agree hf hparse
  refine ⟨hnodup, heval _ _ fun n hn => ?_⟩
  have hname : n ∈ echoName.names := List.mem_eraseDups.mp hn
  obtain rfl : n = "a" := List.mem_singleton.mp hname
  rfl

end Language

end Criteria
