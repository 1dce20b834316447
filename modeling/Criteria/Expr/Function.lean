import Criteria.Expr.Error

/-!
# Functions

A function has a name, a way to write a call of it, and a meaning, which may look at
the variables besides the arguments. A language has at most one function of a name;
registering another one takes its place.
-/

namespace Criteria

structure Function where
  name : String
  /-- The source text of a call, from the texts of the arguments. -/
  render : List String → String
  call : Record → List Value → Except ExprError Value

namespace Function

/-- The usual way to write a call. -/
def renderCall (name : String) (arguments : List String) : String :=
  name ++ "(" ++ String.intercalate ", " arguments ++ ")"

/-- The function of a given name. -/
def find? (functions : List Function) (name : String) : Option Function :=
  functions.find? (·.name == name)

def isKnown (functions : List Function) (name : String) : Bool :=
  functions.any (·.name == name)

/-- The functions with `f` among them, in place of another one of its name. -/
def register (functions : List Function) (f : Function) : List Function :=
  functions.filter (·.name != f.name) ++ [f]

def registerAll (functions : List Function) (fs : List Function) : List Function :=
  fs.foldl register functions

theorem isKnown_iff {functions : List Function} {name : String} :
    isKnown functions name = true ↔ ∃ f ∈ functions, f.name = name := by
  simp [isKnown]

/-- Registering a function takes no name away. -/
theorem isKnown_register {functions : List Function} {name : String}
    (h : isKnown functions name = true) (f : Function) :
    isKnown (register functions f) name = true := by
  rw [isKnown_iff] at h ⊢
  obtain ⟨g, hg, hname⟩ := h
  by_cases hf : g.name = f.name
  · exact ⟨f, by simp [register], hf ▸ hname⟩
  · exact ⟨g, by simp [register, hg, hf], hname⟩

theorem isKnown_registerAll {functions : List Function} {name : String}
    (h : isKnown functions name = true) (fs : List Function) :
    isKnown (registerAll functions fs) name = true := by
  induction fs generalizing functions with
  | nil => exact h
  | cons f fs ih => exact ih (isKnown_register h f)

end Function

end Criteria
