import Criteria.Language.Basic
import Criteria.Text.Basic

/-!
# Predicates

The functions that compiled rules call: three that look for a text in another, and one
that tells whether a value counts as nothing.
-/

namespace Criteria.Predicate

/-- The text of an argument. -/
def textArgument (function : String) (v : Value) : Except ExprError String :=
  match v.text? with
  | some s => .ok s
  | none => .error (.badArguments function .notScalar)

/-- A predicate on the texts of two scalars. -/
def onTexts (name : String) (test : String → String → Bool) : Function where
  name := name
  render := Function.renderCall name
  call _ arguments :=
    match arguments with
    | [subject, pattern] => do
      let subject ← textArgument name subject
      let pattern ← textArgument name pattern
      return .bool (test subject pattern)
    | _ => .error (.badArguments name (.count 2 arguments.length))

def startsWith : Function := onTexts "str_starts_with" Text.startsWith

def contains : Function := onTexts "str_contains" Text.contains

def endsWith : Function := onTexts "str_ends_with" Text.endsWith

/-- Whether a value does not count as true. -/
def isEmpty : Function where
  name := "empty"
  render := Function.renderCall "empty"
  call _ arguments :=
    match arguments with
    | [v] => .ok (.bool !v.truthy)
    | _ => .error (.badArguments "empty" (.count 1 arguments.length))

def all : List Function := [startsWith, contains, endsWith, isEmpty]

/-- The language that compiled rules are written in. -/
def language : Language := .ofFunctions all

end Criteria.Predicate
