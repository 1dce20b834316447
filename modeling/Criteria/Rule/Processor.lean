import Criteria.Rule.Compile
import Criteria.Rule.Context
import Criteria.Rule.Predicate
import Criteria.Rule.Reading

/-!
# Applying rules

A processor takes the rules of a request through all stages: it reads the tree,
compiles it, finds the record and evaluates the expression. The first stage that fails
decides the answer. Only the language, through its cache, is changed by a request.
-/

namespace Criteria

/-- What rules gave: whether they hold, and the expression and the record it is about. -/
structure Outcome where
  result : Bool
  expression : String
  context : Record
  deriving DecidableEq, Repr

structure Processor where
  options : CompileOptions
  language : Language
  contexts : ContextSource

namespace Processor

/-- The processor with the given options and contexts and the language of predicates. -/
def standard (options : CompileOptions) (contexts : ContextSource) : Processor :=
  ⟨options, Predicate.language, contexts⟩

/-- The expressions that the processor keeps. -/
def cached (p : Processor) : Nat := p.language.cache.size

/-- Whether an expression holds of a record. -/
def evaluate (p : Processor) (expression : String) (context : Record) :
    Except RuleError Bool × Processor :=
  match p.language.evaluate expression context with
  | (.ok v, language) => (.ok v.truthy, { p with language })
  | (.error e, language) => (.error (.evaluation e), { p with language })

/-- The expression of the rules in a payload, and the record for a key. -/
def prepare (p : Processor) (payload : Value) (key : Option String) :
    Except RuleError (String × Record) := do
  if payload.hasRules then
    let group ← RuleGroup.ofValue payload
    let expression ← group.compile p.options
    let context ← p.contexts.resolve key
    return (expression, context)
  else throw .invalidPayload

/-- The outcome of the rules in a payload for the record under a key. -/
def process (p : Processor) (payload : Value) (key : Option String) :
    Except RuleError Outcome × Processor :=
  match p.prepare payload key with
  | .error e => (.error e, p)
  | .ok (expression, context) =>
    match p.evaluate expression context with
    | (.ok result, p) => (.ok ⟨result, expression, context⟩, p)
    | (.error e, p) => (.error e, p)

end Processor

end Criteria
