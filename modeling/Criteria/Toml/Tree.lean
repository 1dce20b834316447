import Criteria.Config.Setting

/-!
# Tables of a TOML document

A document says its tables in pieces: by headers, by dotted keys and by the elements of
arrays of tables. While it is read, a table remembers which of these made it, because
that decides what may still be added. A key is given one value, a table has one header,
and a table made by dotted keys gets none; a value written in full stays as it is.
-/

namespace Criteria.Toml

/-- A key with the keys of the tables around it. -/
structure KeyPath where
  parents : List String
  key : String
  deriving DecidableEq, Repr

/-- What made a table: a header below it, its own header, or a dotted key. -/
inductive Origin where
  | implied
  | header
  | dotted
  deriving DecidableEq, Repr

/-- What a key stands for so far. An array of tables is open at its last element. -/
inductive Node where
  | leaf (s : Setting)
  | table (origin : Origin) (members : List (String × Node))
  | tables (closed : List (List (String × Node))) (last : List (String × Node))

abbrev Members := List (String × Node)

namespace Members

/-- The members with the one under `key` changed, if it may be. -/
def change (key : String) (f : Option Node → Option Node) : Members → Option Members
  | [] => (f none).map fun n => [(key, n)]
  | (k, n) :: rest =>
    if k = key then (f (some n)).map fun n => (k, n) :: rest
    else (change key f rest).map ((k, n) :: ·)

/-- Enters a table by the way of a header; one that is missing is made. -/
def enter (f : Members → Option Members) : Option Node → Option Node
  | none => (f []).map (.table .implied)
  | some (.table origin members) => (f members).map (.table origin)
  | some (.tables closed last) => (f last).map (.tables closed)
  | some (.leaf _) => none

/-- Changes the table that the keys of a header lead to. -/
def within (f : Members → Option Members) : List String → Members → Option Members
  | [], members => f members
  | key :: keys, members => change key (enter (within f keys)) members

/-- Opens the table that a header names. -/
def openTable (path : KeyPath) : Members → Option Members :=
  within (change path.key fun
    | none => some (.table .header [])
    | some (.table .implied members) => some (.table .header members)
    | some _ => none) path.parents

/-- Opens a new element of the array of tables that a header names. -/
def openElement (path : KeyPath) : Members → Option Members :=
  within (change path.key fun
    | none => some (.tables [] [])
    | some (.tables closed last) => some (.tables (closed ++ [last]) [])
    | some _ => none) path.parents

/-- Gives a value to a key below dotted ones. The last table on the way must be one
that dotted keys made, the ones before it must have no header. -/
def put (s : Setting) (key : String) : List String → Members → Option Members
  | [], members => change key (fun
    | none => some (.leaf s)
    | some _ => none) members
  | parent :: parents, members => change parent (fun
    | none => (put s key parents []).map (.table .dotted)
    | some (.table .dotted members) => (put s key parents members).map (.table .dotted)
    | some (.table .implied members) =>
      if parents.isEmpty then none else (put s key parents members).map (.table .implied)
    | some (.tables closed last) =>
      if parents.isEmpty then none else (put s key parents last).map (.tables closed)
    | some (.table .header _) | some (.leaf _) => none) members

/-- Gives a value to the key at a path. -/
def assign (path : KeyPath) (s : Setting) : Members → Option Members :=
  put s path.key path.parents

end Members

mutual

/-- The setting that a node has become. -/
def Node.toSetting : Node → Setting
  | .leaf s => s
  | .table _ members => .table (settingsOf members)
  | .tables closed last => .list (tablesOf closed ++ [.table (settingsOf last)])

def settingsOf : List (String × Node) → List (String × Setting)
  | [] => []
  | (key, n) :: rest => (key, n.toSetting) :: settingsOf rest

def tablesOf : List (List (String × Node)) → List Setting
  | [] => []
  | members :: rest => .table (settingsOf members) :: tablesOf rest

end

/-- One line of a document that says something. -/
inductive Statement where
  | value (path : KeyPath) (s : Setting)
  | table (path : KeyPath)
  | element (path : KeyPath)

/-- The tables of a document, and the path of the one that values go to. -/
structure Document where
  members : Members
  current : List String

namespace Document

def empty : Document := ⟨[], []⟩

/-- The document with one more statement. -/
def add (d : Document) : Statement → Option Document
  | .value path s => do
    return { d with members := ← Members.within (Members.assign path s) d.current d.members }
  | .table path => do return ⟨← Members.openTable path d.members, path.parents ++ [path.key]⟩
  | .element path => do return ⟨← Members.openElement path d.members, path.parents ++ [path.key]⟩

/-- The settings that statements make. -/
def settings? (statements : List Statement) : Option (List (String × Setting)) :=
  (statements.foldlM add empty).map fun d => settingsOf d.members

end Document

end Criteria.Toml
