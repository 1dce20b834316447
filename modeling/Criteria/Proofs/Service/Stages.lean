import Mathlib.Control.Monad.Basic
import Criteria.Proofs.Rule.Malformed
import Criteria.Proofs.Service.History

/-!
# The stages of a request

The rules of a request go through stages in a fixed order. The first stage that fails
settles the response: it has a status and a code of its own, and its error gives the
message. Here the stages are written down without anything that is kept from one request
to the next, each beside its status and its code.

The time and the memory that a request takes are no part of the model.
-/

namespace Criteria.Service

variable {α β : Type}

/-! ## The stages -/

/-- What a client gets from a stage that fails. -/
def failure (status : Nat) (code message : String) : Content :=
  ⟨status, Json.object [("success", "false"), ("code", Json.string code),
    ("message", Json.string message), ("data", "null")]⟩

/-- What a client gets where no stage fails. -/
def success (result : Bool) (expression : String) (context : Record) : Content :=
  ⟨200, Json.object [("result", Json.print (.bool result)), ("expression", Json.string expression),
    ("context", Json.print (.object context))]⟩

/-- A stage whose errors all have one status and one code. -/
def stage (status : Nat) (code : String) (x : Except RuleError α) : Except Content α :=
  x.mapError fun e => failure status code e.message

theorem stage_ok (status : Nat) (code : String) (a : α) : stage status code (.ok a) = .ok a := rfl

/-- The value that a body is the text of. -/
def document? (body : ByteArray) : Option Value :=
  (String.fromUTF8? body).bind fun text => (Json.read text).toOption

/-- The object that a body is the text of; `reason` is what is wrong with one that is no JSON. -/
def readObject (body : ByteArray) (reason : String) : Except Content Record :=
  match document? body with
  | some (.object entries) => .ok entries
  | some _ => .error (failure 400 "INVALID_JSON" "请求体不是合法的 JSON 对象: 顶层必须是对象")
  | none => .error (failure 400 "INVALID_JSON" ("请求体不是合法的 JSON 对象: " ++ reason))

def requireRules (entries : Record) : Except Content Unit :=
  match entries.lookup "rules" with
  | none | some .null => .error (failure 400 "INVALID_PAYLOAD" "Invalid rules payload.")
  | some _ => .ok ()

/-- What a client gets for an expression about a record. -/
def evaluationStages (expression : String) (context : Record) : Except Content Content := do
  let parsed ← stage 422 "EVALUATION_FAILED"
    ((Predicate.language.read expression).mapError .evaluation)
  let value ← stage 422 "EVALUATION_FAILED"
    ((parsed.root.eval Predicate.language.functions context).mapError .evaluation)
  return success value.truthy expression context

/-- What a client gets for the rules of an object, applied to the record under a key. -/
def ruleStages (c : Config) (entries : Record) (key : Option String) :
    Except Content Content := do
  requireRules entries
  let group ← stage 422 "MALFORMED_RULE" (RuleGroup.ofValue (.object entries))
  let expression ← stage 422 "MALFORMED_RULE" (group.compile (compileOptions c.compiler))
  let context ← stage 404 "CONTEXT_NOT_FOUND" ((contextSource c.context).resolve key)
  evaluationStages expression context

/-- What a client gets: that of the stage that failed, or that of the last one. -/
def settle : Except Content Content → Content
  | .ok content | .error content => content

/-- What a client gets for its rules where `c` is the configuration. -/
def verdict (c : Config) (explain : ByteArray → String) (r : Request) : Content :=
  settle do
    let entries ← readObject r.body (explain r.body)
    ruleStages c entries r.contextKey?

/-! ## Refusals of a stage -/

/-- What a client gets from a refusal. -/
def Refusal.content (refusal : Refusal) : Content := ⟨refusal.status, refusal.body⟩

/-- What a client gets from an error of its rules. -/
def refused (e : RuleError) : Content := (Refusal.rules e).content

theorem mapError_bind {ε ε' : Type} (g : ε → ε') (x : Except ε α) (f : α → Except ε β) :
    (x >>= f).mapError g = x.mapError g >>= fun a => (f a).mapError g := by
  cases x <;> rfl

theorem map_bind {γ ε : Type} (g : β → γ) (x : Except ε α) (f : α → Except ε β) :
    (x >>= f).map g = x >>= fun a => (f a).map g := by
  cases x <;> rfl

theorem mapError_rules (x : Except RuleError α) :
    (x.mapError Refusal.rules).mapError Refusal.content = x.mapError refused := by
  cases x <;> rfl

theorem mapError_pure {ε ε' : Type} (g : ε → ε') (a : α) :
    (pure a : Except ε α).mapError g = pure a := rfl

/-- A stage whose errors are all refused with the status and the code of the stage. -/
theorem mapError_refused {status : Nat} {code : String} {x : Except RuleError α}
    (h : ∀ e, x = .error e → refused e = failure status code e.message) :
    x.mapError refused = stage status code x := by
  cases x with
  | ok a => rfl
  | error e => exact congrArg Except.error (h e rfl)

theorem mapError_of_isFlaw {x : Except RuleError α} (hx : FailsOnly RuleError.IsFlaw x) :
    x.mapError refused = stage 422 "MALFORMED_RULE" x := by
  refine mapError_refused fun e he => ?_
  obtain ⟨path, flaw, rfl⟩ := hx.of_error e he
  rfl

theorem mapError_ofValue (v : Value) :
    (RuleGroup.ofValue v).mapError refused = stage 422 "MALFORMED_RULE" (RuleGroup.ofValue v) :=
  mapError_of_isFlaw (RuleGroup.isFlaw_ofValue v)

theorem mapError_compile (o : CompileOptions) (g : RuleGroup) :
    (g.compile o).mapError refused = stage 422 "MALFORMED_RULE" (g.compile o) :=
  mapError_of_isFlaw (g.isFlaw_compile o)

theorem mapError_resolve (source : ContextSource) (key : Option String) :
    (source.resolve key).mapError refused =
      stage 404 "CONTEXT_NOT_FOUND" (source.resolve key) := by
  refine mapError_refused fun e he => ?_
  unfold ContextSource.resolve at he
  split at he
  · cases he
  · split at he <;> cases he
    rfl

theorem mapError_evaluation (x : Except ExprError α) :
    (x.mapError RuleError.evaluation).mapError refused =
      stage 422 "EVALUATION_FAILED" (x.mapError .evaluation) := by
  refine mapError_refused fun e he => ?_
  cases x with
  | ok a => cases he
  | error cause =>
    cases he
    rfl

theorem mapError_payload (s : Service) (body : ByteArray) :
    (s.payload body).mapError Refusal.content =
      (readObject body (s.explain body)).map Value.object := by
  unfold payload readObject document?
  cases String.fromUTF8? body with
  | none => rfl
  | some text =>
    simp only [Option.map_some, Option.bind_some]
    cases Json.read text with
    | error fault => rfl
    | ok v => cases v <;> rfl

/-! ## All stages -/

theorem requireRules_eq (entries : Record) :
    requireRules entries = if (Value.object entries).hasRules then .ok ()
      else .error (refused .invalidPayload) := by
  have hrules : (Value.object entries).hasRules =
      match entries.lookup "rules" with
      | none | some .null => false
      | some _ => true := rfl
  rw [hrules, requireRules]
  cases entries.lookup "rules" with
  | none => rfl
  | some v => cases v <;> rfl

/-- What a client gets from an outcome. -/
def succeeded (o : Outcome) : Content := success o.result o.expression o.context

theorem content_ok (outcome : Outcome) : (answer (.ok outcome)).content = succeeded outcome := by
  simp only [succeeded, success, Json.print]
  rfl

theorem process_ofConfig (c : Config) (explain : ByteArray → String) (entries : Record)
    (key : Option String) :
    (((ofConfig c explain).processor.process (.object entries) key).1.mapError refused).map
      succeeded = ruleStages c entries key := by
  rw [Processor.process_fst, Processor.prepare, ruleStages, requireRules_eq]
  split
  · simp only [evaluationStages, Processor.evaluate_fst (serves_ofConfig c explain).faithful,
      mapError_bind, mapError_ofValue, mapError_compile, mapError_resolve, mapError_evaluation,
      mapError_pure, map_bind, bind_assoc, pure_bind]
    rfl
  · rfl

theorem content_answer (x : Except Refusal Outcome) :
    (answer x).content = settle ((x.mapError Refusal.content).map succeeded) := by
  cases x with
  | ok outcome => exact content_ok outcome
  | error refusal => rfl

/-- A service that was just set up gives the response of the first stage that fails. -/
theorem content_applyRules (c : Config) (explain : ByteArray → String) {r : Request}
    (h : r.body.size ≤ maxBodySize) :
    ((ofConfig c explain).applyRules r).1.content = verdict c explain r := by
  have hexplain : (ofConfig c explain).explain = explain := rfl
  rw [applyRules_fst _ h, content_answer, mapError_bind, mapError_payload, verdict, hexplain]
  simp only [mapError_rules, map_bind]
  cases readObject r.body (explain r.body) with
  | error content => rfl
  | ok entries => exact congrArg settle (process_ofConfig c explain entries r.contextKey?)

theorem Refusal.status_ne (refusal : Refusal) : refusal.status ≠ 500 := by
  cases refusal with
  | notJson reason => simp [status]
  | notObject => decide
  | rules e => cases e <;> simp [status]

theorem status_answer (x : Except Refusal Outcome) : (answer x).status ≠ 500 := by
  cases x with
  | ok outcome => simp [answer, jsonResponse]
  | error refusal => exact refusal.status_ne

theorem status_applyRules (s : Service) (r : Request) : (s.applyRules r).1.status ≠ 500 := by
  by_cases hsize : r.body.size ≤ maxBodySize
  · rw [applyRules_fst s hsize]
    exact status_answer _
  · simp [applyRules, Nat.lt_of_not_le hsize, textResponse]

theorem status_dispatch (s : Service) (r : Request) : (s.dispatch r).1.status ≠ 500 := by
  unfold dispatch
  split
  · simp
  · next route _ =>
    split
    · cases route with
      | rules => exact status_applyRules s r
      | health => simp [serve, textResponse]
    · simp

/-- Whatever a client asks for, the service does not fail inside. -/
theorem status_respond (s : Service) (fresh : String) (r : Request) :
    (s.respond fresh r).1.status ≠ 500 := by
  by_cases hmethod : r.method = "OPTIONS"
  · simp [respond, hmethod, permissions]
  · rw [respond, if_neg hmethod]
    exact status_dispatch s r

/-- Each of many requests to apply rules is answered as if it were the only one, and that is
by the first stage that fails. -/
theorem content_responses (c : Config) (explain : ByteArray → String) (ids : Nat → String)
    (fresh : String) {rs : List Request} {i : Nat} {r : Request} (hi : rs[i]? = some r)
    (hmethod : r.method = "POST") (hpath : r.path = "/process-rules")
    (hsize : r.body.size ≤ maxBodySize) :
    ∃ response, ((ofConfig c explain).responses ids rs)[i]? = some response ∧
      response.content = ((ofConfig c explain).respond fresh r).1.content ∧
      response.content = verdict c explain r ∧ response.status ≠ 500 := by
  refine ⟨_, getElem?_responses c explain ids hi, content_respond .., ?_, status_respond _ _ r⟩
  rw [respond_rules _ _ hmethod hpath, content_labelled, content_applyRules c explain hsize]

/-! ## A rule applied -/

/-- Two people who have records, and the record of one of them. -/
def twoRecords (record : Record) : Config :=
  { context := { subjects := [("jane", [("age", .ofInt 41)]), ("john", record)] } }

/-- A request to apply the rules in a text to the record under a key. -/
def requestFor (key text : String) : Request :=
  ⟨"POST", "/process-rules", [("X-Context-Key", key)], text.toUTF8⟩

/-- The text of the rule that the age is less than 40. -/
def ageRule : String :=
  "\x7b\"condition\": \"AND\", \"rules\": " ++
    "[\x7b\"field\": \"age\", \"operator\": \"less\", \"value\": 40\x7d]\x7d"

/-- The object that `ageRule` is the text of. -/
def ageEntries : Record :=
  [("condition", .string "AND"), ("rules", .array [.object
    [("field", .string "age"), ("operator", .string "less"), ("value", .ofInt 40)]])]

theorem ofValue_ageEntries :
    RuleGroup.ofValue (.object ageEntries) = .ok ⟨.and, [.leaf ⟨"age", .less, .ofInt 40⟩]⟩ := by
  decide +kernel

theorem compile_ageEntries :
    (⟨.and, [.leaf ⟨"age", .less, .ofInt 40⟩]⟩ : RuleGroup).compile (compileOptions {}) =
      .ok "age < \"40\"" := by
  simp only [RuleGroup.compile, Rule.compileGroup, Rule.compileAll, Rule.compile]
  decide +kernel

/-- The rule reaches its last stages, with the record under the key. -/
theorem verdict_ageRule (record : Record) (explain : ByteArray → String) {key name : String}
    {context : Record} (hkey : (requestFor key ageRule).contextKey? = some name)
    (hcontext : (contextSource (twoRecords record).context).resolve (some name) = .ok context) :
    verdict (twoRecords record) explain (requestFor key ageRule) =
      settle (evaluationStages "age < \"40\"" context) := by
  have hdocument : document? ageRule.toUTF8 = some (.object ageEntries) := by
    decide +kernel
  have hbody (reason : String) :
      readObject (requestFor key ageRule).body reason = .ok ageEntries := by
    simp only [requestFor, readObject, hdocument]
  have hrules : requireRules ageEntries = .ok () := rfl
  have hcompiler : (twoRecords record).compiler = {} := rfl
  rw [verdict, hbody, hkey]
  simp only [ruleStages, hrules, ofValue_ageEntries, hcompiler, compile_ageEntries, hcontext,
    stage_ok, bind, Except.bind]

/-- A request without rules, between two others with the same expression. -/
def sampleRequests : List Request :=
  [requestFor "john" ageRule, requestFor "john" "\x7b\"rules\": null\x7d",
    requestFor " jane " ageRule]

theorem content_responses_sample :
    ∃ refused applied,
      ((ofConfig (twoRecords []) fun _ => "").responses (fun _ => "") sampleRequests)[1]? =
        some refused ∧
      ((ofConfig (twoRecords []) fun _ => "").responses (fun _ => "") sampleRequests)[2]? =
        some applied ∧
      refused.content = ⟨400, "\x7b\"success\":false,\"code\":\"INVALID_PAYLOAD\"," ++
        "\"message\":\"Invalid rules payload.\",\"data\":null\x7d"⟩ ∧
      applied.content = ⟨200, "\x7b\"result\":false,\"expression\":\"age < \\\"40\\\"\"," ++
        "\"context\":\x7b\"age\":41\x7d\x7d"⟩ := by
  have hrefused : sampleRequests[1]? = some (requestFor "john" "\x7b\"rules\": null\x7d") := rfl
  have happlied : sampleRequests[2]? = some (requestFor " jane " ageRule) := rfl
  obtain ⟨refused, hi, -, hfirst, -⟩ := content_responses (twoRecords []) (fun _ => "")
    (fun _ => "") "" hrefused rfl (by decide) (by decide)
  have hkey : (requestFor " jane " ageRule).contextKey? = some "jane" := by
    decide +kernel
  have hjane : verdict (twoRecords []) (fun _ => "") (requestFor " jane " ageRule) =
      settle (evaluationStages "age < \"40\"" [("age", .ofInt 41)]) :=
    verdict_ageRule [] _ hkey rfl
  obtain ⟨applied, hj, -, hsecond, -⟩ := content_responses (twoRecords []) (fun _ => "")
    (fun _ => "") "" happlied rfl (by decide) (by decide +kernel)
  refine ⟨refused, applied, hi, hj, hfirst.trans ?_, (hsecond.trans hjane).trans ?_⟩
  · decide +kernel
  · decide +kernel

end Criteria.Service
