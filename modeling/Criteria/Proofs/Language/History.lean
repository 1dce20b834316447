import Criteria.Language.Basic
import Criteria.Proofs.Expr.Soundness

/-!
# Languages over time

A language is asked one thing after another, and what it has read before it may take from
its cache. The answers do not show it: a tree is kept only under the text that it was read
from, and since functions are added or replaced but never taken away, the text would be
read as the same tree at any later time.

Other languages may have the same cache. Nothing is claimed of languages that share it
with one that knows more functions than they do.
-/

namespace Criteria

/-- What is kept under a text is what the text is read as where `known` are the functions. -/
def Cache.Holds (known : String → Bool) (cache : Cache) : Prop :=
  ∀ ⦃source : String⦄ ⦃parsed : Parsed⦄, cache.get? source = some parsed →
    parsed.source = source ∧ Expr.ofText known source = .ok parsed.root

namespace Cache.Holds

variable {known : String → Bool} {cache : Cache}

theorem of_size_eq_zero (h : cache.size = 0) : cache.Holds known := by
  intro source parsed hget
  cases cache with
  | disabled => cases hget
  | memory limits entries =>
    obtain rfl : entries = [] := List.length_eq_zero_iff.mp h
    cases hget

theorem mono {known' : String → Bool} (hk : ∀ s, known s = true → known' s = true)
    (h : cache.Holds known) : cache.Holds known' := by
  intro source parsed hget
  obtain ⟨hsource, hroot⟩ := h hget
  exact ⟨hsource, Expr.ofText_mono hk hroot⟩

theorem insert (h : cache.Holds known) {source : String} {root : Expr}
    (hroot : Expr.ofText known source = .ok root) :
    (cache.insert source ⟨source, root⟩).Holds known := by
  intro s parsed hget
  rcases Cache.get?_insert hget with ⟨rfl, rfl⟩ | hbefore
  · exact ⟨rfl, hroot⟩
  · exact h hbefore

theorem clear : cache.clear.Holds known := by
  apply of_size_eq_zero
  cases cache <;> rfl

end Cache.Holds

namespace Language

/-! ## Requests -/

/-- What can be asked of a language. -/
inductive Request where
  | register (f : Function)
  | registerAll (fs : List Function)
  | parse (source : String)
  | evaluate (source : String) (vars : Record)
  | compile (source : String)
  | lint (source : String) (names : List String)
  | clear

inductive Answer where
  | done
  | parsed (result : Except ExprError Parsed)
  | value (result : Except ExprError Value)
  | text (result : Except ExprError String)
  | verdict (result : Except ExprError Unit)

/-- The answer to a request, and the language after it. -/
def perform (l : Language) : Request → Answer × Language
  | .register f => (.done, l.register f)
  | .registerAll fs => (.done, l.registerAll fs)
  | .parse source => (l.parse source).map .parsed id
  | .evaluate source vars => (l.evaluate source vars).map .value id
  | .compile source => (l.compile source).map .text id
  | .lint source names => (l.lint source names).map .verdict id
  | .clear => (.done, { l with cache := l.cache.clear })

/-- The answers to requests that come one after another. -/
def answers (l : Language) : List Request → List Answer
  | [] => []
  | r :: rs => (l.perform r).1 :: (l.perform r).2.answers rs

/-! ## Reading -/

/-- What a text is read as, whatever is kept. -/
def read (l : Language) (source : String) : Except ExprError Parsed :=
  (Expr.ofText (Function.isKnown l.functions) source).map (Parsed.mk source)

/-- Whatever the language keeps is what it would read now. -/
def Faithful (l : Language) : Prop := l.cache.Holds (Function.isKnown l.functions)

/-- The language with a cache that keeps nothing. -/
def uncached (l : Language) : Language := { l with cache := .disabled }

variable {l : Language}

theorem parse_eq_read (h : l.Faithful) (source : String) : (l.parse source).1 = l.read source := by
  unfold parse
  split
  · next parsed hget =>
    obtain ⟨hsource, hroot⟩ := h hget
    subst hsource
    simp only [read, hroot]
    rfl
  · split
    · next e he => simp only [read, he]; rfl
    · next root hroot => simp only [read, hroot]; rfl

theorem functions_parse (l : Language) (source : String) :
    (l.parse source).2.functions = l.functions := by
  unfold parse
  split
  · rfl
  · split <;> rfl

theorem uncached_parse (l : Language) (source : String) :
    (l.parse source).2.uncached = l.uncached := by
  simp only [uncached, functions_parse]

theorem parse_uncached (l : Language) (source : String) :
    l.uncached.parse source = (l.read source, l.uncached) := by
  simp only [parse, read, uncached, Cache.get?]
  split
  · next e he => simp only [he]; rfl
  · next root hroot => simp only [hroot]; rfl

/-- Whatever else is asked about a text is asked of what it is parsed as. -/
theorem withParsed_eq {α : Type} (l : Language) (source : String)
    (f : Parsed → Except ExprError α) :
    l.withParsed source f = ((l.parse source).1 >>= f, (l.parse source).2) := by
  unfold withParsed
  split
  · next parsed l' hp => rw [hp]; rfl
  · next e l' hp => rw [hp]; rfl

theorem withParsed_of_ofText {α : Type} (h : l.Faithful) {source : String} {root : Expr}
    (hroot : Expr.ofText (Function.isKnown l.functions) source = .ok root)
    (f : Parsed → Except ExprError α) : (l.withParsed source f).1 = f ⟨source, root⟩ := by
  rw [withParsed_eq, parse_eq_read h, read, hroot]
  rfl

/-- What is done with the tree of a text is the same with a cache and without. -/
theorem withParsed_uncached {α : Type} (h : l.Faithful) (source : String)
    (f : Parsed → Except ExprError α) :
    (l.withParsed source f).1 = (l.uncached.withParsed source f).1 ∧
      (l.withParsed source f).2.uncached = (l.uncached.withParsed source f).2 := by
  simp only [withParsed_eq, parse_uncached, parse_eq_read h, uncached_parse, and_self]

/-- One request is answered the same with a cache and without. -/
theorem perform_uncached (h : l.Faithful) (r : Request) :
    (l.perform r).1 = (l.uncached.perform r).1 ∧
      (l.perform r).2.uncached = (l.uncached.perform r).2 := by
  cases r with
  | register f => exact ⟨rfl, rfl⟩
  | registerAll fs => exact ⟨rfl, rfl⟩
  | clear => exact ⟨rfl, rfl⟩
  | parse source =>
    simp only [perform, parse_uncached]
    exact ⟨congrArg Answer.parsed (parse_eq_read h source), uncached_parse l source⟩
  | evaluate source vars =>
    obtain ⟨hanswer, hafter⟩ := withParsed_uncached h source fun p => p.root.eval l.functions vars
    exact ⟨congrArg Answer.value hanswer, hafter⟩
  | compile source =>
    obtain ⟨hanswer, hafter⟩ := withParsed_uncached h source fun p => p.root.render l.functions
    exact ⟨congrArg Answer.text hanswer, hafter⟩
  | lint source names =>
    obtain ⟨hanswer, hafter⟩ := withParsed_uncached h source _
    exact ⟨congrArg Answer.verdict hanswer, hafter⟩

/-! ## What is kept -/

/-- A language that shares a cache leaves in it what another one would read itself, if it
knows no function that the other does not know. -/
theorem holds_parse {known : String → Bool} (h : l.cache.Holds known)
    (hk : ∀ s, Function.isKnown l.functions s = true → known s = true) (source : String) :
    (l.parse source).2.cache.Holds known := by
  unfold parse
  split
  · exact h
  · split
    · exact h
    · next root hroot => exact h.insert (Expr.ofText_mono hk hroot)

theorem holds_perform {known : String → Bool} (h : l.cache.Holds known)
    (hk : ∀ s, Function.isKnown l.functions s = true → known s = true) (r : Request) :
    (l.perform r).2.cache.Holds known := by
  cases r with
  | register f => exact h
  | registerAll fs => exact h
  | parse source => exact holds_parse h hk source
  | clear => exact .clear
  | evaluate source vars | compile source | lint source names =>
    have hparse := holds_parse h hk source
    simpa [perform, evaluate, compile, lint, withParsed_eq] using hparse

/-- No request takes a function away. -/
theorem isKnown_perform (r : Request) {name : String}
    (h : Function.isKnown l.functions name = true) :
    Function.isKnown (l.perform r).2.functions name = true := by
  cases r with
  | register f => exact Function.isKnown_register h f
  | registerAll fs => exact Function.isKnown_registerAll h fs
  | clear => exact h
  | parse source => simpa [perform, functions_parse] using h
  | evaluate source vars | compile source | lint source names =>
    simpa [perform, evaluate, compile, lint, withParsed_eq, functions_parse] using h

theorem Faithful.perform (h : l.Faithful) (r : Request) : (l.perform r).2.Faithful :=
  (holds_perform h (fun _ hs => hs) r).mono fun _ hs => isKnown_perform r hs

/-! ## Time -/

/-- What a language is later: it was asked something, or another language was that has its
cache and knows no function that it does not know. -/
inductive Becomes (l : Language) : Language → Prop
  | refl : l.Becomes l
  | perform {m : Language} (r : Request) : l.Becomes m → l.Becomes (m.perform r).2
  | share {m : Language} {functions : List Function} (r : Request) :
      (∀ s, Function.isKnown functions s = true → Function.isKnown m.functions s = true) →
      l.Becomes m →
      l.Becomes { m with cache := ((⟨functions, m.cache⟩ : Language).perform r).2.cache }

theorem Becomes.faithful {m : Language} (h : l.Becomes m) (hl : l.Faithful) : m.Faithful := by
  induction h with
  | refl => exact hl
  | perform r _ ih => exact ih.perform r
  | @share m functions r hk _ ih => exact holds_perform (l := ⟨functions, m.cache⟩) ih hk r

theorem Becomes.isKnown {m : Language} (h : l.Becomes m) {name : String}
    (hname : Function.isKnown l.functions name = true) :
    Function.isKnown m.functions name = true := by
  induction h with
  | refl => exact hname
  | perform r _ ih => exact isKnown_perform r ih
  | share _ _ _ ih => exact ih

/-! ## Answers -/

/-- Many requests are answered the same with a cache and without. -/
theorem answers_uncached (h : l.Faithful) (rs : List Request) :
    l.answers rs = l.uncached.answers rs := by
  induction rs generalizing l with
  | nil => rfl
  | cons r rs ih =>
    obtain ⟨hanswer, hafter⟩ := perform_uncached h r
    rw [answers, answers, hanswer, ← hafter, ih (h.perform r)]

/-- A language with a cache of any size answers like one that keeps nothing. -/
theorem answers_memory (functions : List Function) (limits : Cache.Limits) (rs : List Request) :
    (⟨functions, .memory limits []⟩ : Language).answers rs =
      (⟨functions, .disabled⟩ : Language).answers rs :=
  answers_uncached (.of_size_eq_zero rfl) rs

end Language

end Criteria
