import Criteria.Config.Basic
import Criteria.Config.Setting

/-!
# Reading a configuration

A configuration is described by a JSON value or by settings. The two differ in what
they accept at the leaves: JSON strictly what is asked for, settings whatever can stand
for it. `Source` holds that difference, and everything above the leaves is read in one
way: members that are missing keep their defaults, unknown ones do not matter, and a
structure may also be a list of its members in order.
-/

namespace Criteria.Config

/-- How data of one kind is taken as part of a configuration. -/
structure Source (α : Type) where
  isNull : α → Bool
  text? : α → Option String
  flag? : α → Option Bool
  port? : α → Option Port
  record? : α → Option Record
  /-- The entries of a table. -/
  entries? : α → Option (List (String × α))
  /-- The members of a structure with the given names. -/
  members? : List String → α → Option (List (String × α))

namespace Source

/-- JSON values, each of exactly the kind that is asked for. -/
def json : Source Value where
  isNull := Value.isNull
  text?
    | .string s => some s
    | _ => none
  flag?
    | .bool b => some b
    | _ => none
  port?
    | .number (.int n _ _) => if n < 0 then none else Port.ofNat? n.toNat
    | _ => none
  record?
    | .object entries => some entries
    | _ => none
  entries?
    | .object entries => some entries
    | _ => none
  members? names
    | .object entries => some entries
    | .array items => if names.length < items.length then none else some (names.zip items)
    | _ => none

/-- Settings, each read as what it can stand for. -/
def settings : Source Setting where
  isNull _ := false
  text? := Setting.text?
  flag? := Setting.flag?
  port? := Setting.port?
  record? := Setting.record?
  entries?
    | .table entries => some entries
    | _ => none
  members? names
    | .table entries => some entries
    | .list items => some (names.zip items)
    | _ => none

end Source

variable {α β : Type}

/-- The member `name` as `read` takes it, or `other` if it is missing. -/
def memberOr (read : α → Option β) (name : String) (other : β) (members : List (String × α)) :
    Option β :=
  match members.lookup name with
  | none => some other
  | some v => read v

def readServer (s : Source α) (v : α) : Option Server := do
  let members ← s.members? ["host", "port"] v
  let standard : Server := {}
  return {
    host := ← memberOr s.text? "host" standard.host members
    port := ← memberOr s.port? "port" standard.port members }

def readObservability (s : Source α) (v : α) : Option Observability := do
  let members ← s.members? ["log_level", "log_format", "metrics_enabled", "metrics_port"] v
  let standard : Observability := {}
  return {
    logLevel := ← memberOr s.text? "log_level" standard.logLevel members
    logFormat := ← memberOr s.text? "log_format" standard.logFormat members
    metricsEnabled := ← memberOr s.flag? "metrics_enabled" standard.metricsEnabled members
    metricsPort := ← memberOr s.port? "metrics_port" standard.metricsPort members }

def readCompiler (s : Source α) (v : α) : Option Compiler := do
  let members ← s.members? ["typed_literals", "escape_strings"] v
  let standard : Compiler := {}
  return {
    typedLiterals := ← memberOr s.flag? "typed_literals" standard.typedLiterals members
    escapeStrings := ← memberOr s.flag? "escape_strings" standard.escapeStrings members }

/-- A record, or none where there is nothing. -/
def readOptional (s : Source α) (v : α) : Option (Option Record) :=
  if s.isNull v then some none else (s.record? v).map some

def readSubjects (s : Source α) (v : α) : Option (List (String × Record)) := do
  (← s.entries? v).mapM fun e => return (e.1, ← s.record? e.2)

def readContext (s : Source α) (v : α) : Option Context := do
  let members ← s.members? ["default", "subjects", "fallback"] v
  let standard : Context := {}
  return {
    standard := ← memberOr (readOptional s) "default" standard.standard members
    subjects := ← memberOr (readSubjects s) "subjects" standard.subjects members
    fallback := ← memberOr s.flag? "fallback" standard.fallback members }

/-- The configuration that data describes. -/
def ofSource? (s : Source α) (v : α) : Option Config := do
  let members ← s.members?
    ["service_name", "environment", "server", "observability", "compiler", "context"] v
  let standard : Config := {}
  return {
    serviceName := ← memberOr s.text? "service_name" standard.serviceName members
    environment := ← memberOr s.text? "environment" standard.environment members
    server := ← memberOr (readServer s) "server" standard.server members
    observability := ← memberOr (readObservability s) "observability" standard.observability members
    compiler := ← memberOr (readCompiler s) "compiler" standard.compiler members
    context := ← memberOr (readContext s) "context" standard.context members }

/-- The configuration that a JSON value describes. -/
def ofValue? (v : Value) : Option Config := ofSource? Source.json v

/-- The configuration that settings describe. -/
def ofSetting? (s : Setting) : Option Config := ofSource? Source.settings s

end Criteria.Config
