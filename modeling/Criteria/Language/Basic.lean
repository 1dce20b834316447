import Criteria.Expr.Eval
import Criteria.Expr.Reading
import Criteria.Expr.Render
import Criteria.Language.Cache

/-!
# The expression language

A language is a set of functions and a cache of what was read. Reading an expression
may change the cache, so the operations return the language as it is afterwards. An
expression that cannot be read is not kept.
-/

namespace Criteria

structure Language where
  functions : List Function
  cache : Cache

namespace Language

/-- The language with the given functions and an empty standard cache. -/
def ofFunctions (functions : List Function) : Language :=
  ⟨Function.registerAll [] functions, .standard⟩

def register (l : Language) (f : Function) : Language :=
  { l with functions := Function.register l.functions f }

def registerAll (l : Language) (fs : List Function) : Language :=
  { l with functions := Function.registerAll l.functions fs }

def hasFunction (l : Language) (name : String) : Bool :=
  Function.isKnown l.functions name

/-- The names of the functions in increasing order. -/
def functionNames (l : Language) : List String :=
  (l.functions.map Function.name).mergeSort (fun a b => decide (a ≤ b))

/-- What a log says of the language: the functions and how much is kept. -/
def description (l : Language) : String :=
  "ExpressionLanguage \x7b functions: [" ++
    String.intercalate ", " (l.functionNames.map logQuote) ++
    "], cached_expressions: " ++ intText l.cache.size ++ " \x7d"
where
  /-- A name between quotes, with escapes for what is not plain text. -/
  logQuote (s : String) : String :=
    String.ofList ('"' :: (s.toList.flatMap logEscape ++ ['"']))
  logEscape (c : Char) : List Char :=
    if c.toNat < 0x20 ∧ escape c = [c] ∨ c.toNat = 0x7F then
      ['\\', 'u', '\x7b'] ++ Nat.toDigits 16 c.toNat ++ ['\x7d']
    else escape c

/-- The expression that `source` is, from the cache if it holds it. -/
def parse (l : Language) (source : String) : Except ExprError Parsed × Language :=
  match l.cache.get? source with
  | some parsed => (.ok parsed, l)
  | none =>
    match Expr.ofText (Function.isKnown l.functions) source with
    | .error e => (.error e, l)
    | .ok root =>
      let parsed : Parsed := ⟨source, root⟩
      (.ok parsed, { l with cache := l.cache.insert source parsed })

/-- The outcome of `f` on the expression that `source` is. -/
def withParsed {α : Type} (l : Language) (source : String)
    (f : Parsed → Except ExprError α) : Except ExprError α × Language :=
  match l.parse source with
  | (.ok parsed, l) => (f parsed, l)
  | (.error e, l) => (.error e, l)

def evaluate (l : Language) (source : String) (vars : Record) : Except ExprError Value × Language :=
  l.withParsed source fun parsed => parsed.root.eval l.functions vars

/-- The expression in its full written form. -/
def compile (l : Language) (source : String) : Except ExprError String × Language :=
  l.withParsed source fun parsed => parsed.root.render l.functions

/-- Checks that an expression can be read and refers to no name outside `names`. -/
def lint (l : Language) (source : String) (names : List String) : Except ExprError Unit × Language :=
  l.withParsed source fun parsed =>
    match parsed.root.variables.find? (!names.contains ·) with
    | some name => .error (.undefinedVariable name)
    | none => .ok ()

end Language

end Criteria
