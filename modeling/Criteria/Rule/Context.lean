import Criteria.Rule.Error
import Criteria.Value.Basic

/-!
# Contexts

A context is the record that rules are applied to. It is found by a key: either every
request gets one and the same record, or each key has a record of its own and a
fallback serves the requests without one.
-/

namespace Criteria

inductive ContextSource where
  | fixed (record : Record)
  | keyed (subjects : List (String × Record)) (fallback : Option Record)
  deriving DecidableEq, Repr

namespace ContextSource

/-- A record to try rules on. -/
def sample : Record :=
  [("age", .ofInt 30), ("birthday", .string "1990-01-01"), ("name", .string "John Doe")]

/-- The source that a processor has unless told otherwise. -/
def standard : ContextSource := .fixed sample

/-- The record for a key, or for a request without one. -/
def resolve (source : ContextSource) (key : Option String) : Except RuleError Record :=
  match source with
  | fixed record => .ok record
  | keyed subjects fallback =>
    match key.bind (List.lookup · subjects), fallback with
    | some record, _ => .ok record
    | none, some record => .ok record
    | none, none => .error (.contextUnavailable (key.getD "<default>"))

/-- The record that a value is. -/
def recordOf (v : Value) : Except RuleError Record :=
  match v with
  | .object entries => .ok entries
  | v => .error (.malformed (.context v))

end ContextSource

end Criteria
