import Criteria.Proofs.Service.Stages

/-!
# Records apart from each other

A request is answered for the record under its key. Which record stands under another key
it does not learn: not from the response to a request for that record, which it does not
see, and not from what such a request leaves behind.
-/

namespace Criteria

/-- The configurations have records under `key`, and differ in these alone. -/
structure Config.EqualExcept (key : String) (c d : Config) : Prop where
  isSome_left : (c.context.subjects.lookup key).isSome
  isSome_right : (d.context.subjects.lookup key).isSome
  lookup_eq : ∀ other, other ≠ key →
    c.context.subjects.lookup other = d.context.subjects.lookup other
  rest_eq : d = { c with context := { c.context with subjects := d.context.subjects } }

namespace Service

theorem contextSource_of_lookup {c : Config.Context} {key : String}
    (h : (c.subjects.lookup key).isSome) :
    contextSource c = .keyed c.subjects
      (if c.fallback then some (c.standard.getD ContextSource.sample) else none) := by
  have hne : c.subjects.isEmpty = false := by
    rw [List.isEmpty_eq_false_iff]
    intro hnil
    rw [hnil] at h
    cases h
  rw [contextSource, hne]
  rfl

variable {b : String} {c d : Config}

/-- Whoever does not ask for the one record gets the same record from both. -/
theorem resolve_eq (h : c.EqualExcept b d) {key : Option String} (hkey : key ≠ some b) :
    (contextSource c.context).resolve key = (contextSource d.context).resolve key := by
  have hstandard : d.context.standard = c.context.standard :=
    congrArg (·.context.standard) h.rest_eq
  have hfallback : d.context.fallback = c.context.fallback :=
    congrArg (·.context.fallback) h.rest_eq
  have hlookup : key.bind (List.lookup · c.context.subjects) =
      key.bind (List.lookup · d.context.subjects) := by
    cases key with
    | none => rfl
    | some other => exact h.lookup_eq other fun he => hkey (congrArg some he)
  rw [contextSource_of_lookup h.isSome_left, contextSource_of_lookup h.isSome_right, hstandard,
    hfallback]
  simp only [ContextSource.resolve, hlookup]

/-- Of a record that it does not ask for, a request learns nothing, whatever was asked of
the service before. -/
theorem content_responses_of_equalExcept (h : c.EqualExcept b d) (explain : ByteArray → String)
    (ids ids' : Nat → String) {rs : List Request} {i : Nat} {r : Request} (hi : rs[i]? = some r)
    (hkey : r.contextKey? ≠ some b) :
    ∃ response response', ((ofConfig c explain).responses ids rs)[i]? = some response ∧
      ((ofConfig d explain).responses ids' rs)[i]? = some response' ∧
      response.content = response'.content := by
  have hcompiler : d.compiler = c.compiler := congrArg (·.compiler) h.rest_eq
  have hoptions : (ofConfig c explain).processor.options = (ofConfig d explain).processor.options :=
    congrArg compileOptions hcompiler.symm
  have hlanguage : (ofConfig c explain).processor.language =
      (ofConfig d explain).processor.language := rfl
  have hprocess : ∀ v, ((ofConfig c explain).processor.process v r.contextKey?).1 =
      ((ofConfig d explain).processor.process v r.contextKey?).1 :=
    Processor.process_congr hoptions hlanguage (resolve_eq h hkey)
  refine ⟨_, _, getElem?_responses c explain ids hi, getElem?_responses d explain ids' hi, ?_⟩
  have hresponse := respond_congr (s := ofConfig c explain) (t := ofConfig d explain) rfl hprocess
  rw [hresponse, content_respond]

theorem equalExcept_twoRecords (record record' : Record) :
    (twoRecords record).EqualExcept "john" (twoRecords record') where
  isSome_left := rfl
  isSome_right := rfl
  lookup_eq other hother := by
    have hne : (other == "john") = false := by simpa using hother
    simp only [twoRecords, List.lookup_cons, hne]
  rest_eq := rfl

/-- What Jane is told does not hang on the age of John, and what John is told does. -/
theorem content_responses_of_equalExcept_twoRecords :
    (∃ response response',
      ((ofConfig (twoRecords [("age", .ofInt 50)])).responses (fun _ => "1")
        [requestFor "john" ageRule, requestFor " jane " ageRule])[1]? = some response ∧
      ((ofConfig (twoRecords [("age", .ofInt 30)])).responses (fun _ => "2")
        [requestFor "john" ageRule, requestFor " jane " ageRule])[1]? = some response' ∧
      response.content = response'.content) ∧
    verdict (twoRecords [("age", .ofInt 50)]) (fun _ => "") (requestFor "john" ageRule) ≠
      verdict (twoRecords [("age", .ofInt 30)]) (fun _ => "") (requestFor "john" ageRule) := by
  have hkey : (requestFor "john" ageRule).contextKey? = some "john" := by
    decide +kernel
  have holder := verdict_ageRule [("age", .ofInt 50)] (fun _ => "") hkey rfl
  have hyounger := verdict_ageRule [("age", .ofInt 30)] (fun _ => "") hkey rfl
  refine ⟨content_responses_of_equalExcept (equalExcept_twoRecords ..) _ _ _ rfl (by decide), ?_⟩
  rw [holder, hyounger]
  decide +kernel

end Service

end Criteria
