import Criteria.Proofs.Language.History
import Criteria.Service.Basic

/-!
# Services over time

What a service keeps of the expressions of earlier requests shows in no response. A service
and the same service without anything kept answer alike, and all that a request changes is
what is kept. So each of many requests gets the response that a service set up for it alone
would have given.
-/

namespace Criteria

namespace Processor

variable {p q : Processor}

/-- The processor with a language that keeps nothing. -/
def uncached (p : Processor) : Processor := { p with language := p.language.uncached }

theorem evaluate_eq (p : Processor) (expression : String) (context : Record) :
    p.evaluate expression context =
      (((p.language.evaluate expression context).1.map Value.truthy).mapError .evaluation,
        { p with language := (p.language.evaluate expression context).2 }) := by
  unfold evaluate
  split
  · next v language h => rw [h]; rfl
  · next e language h => rw [h]; rfl

/-- An evaluation shows nothing of what is kept. -/
theorem evaluate_fst (h : p.language.Faithful) (expression : String) (context : Record) :
    (p.evaluate expression context).1 = (do
      let parsed ← (p.language.read expression).mapError .evaluation
      let value ← (parsed.root.eval p.language.functions context).mapError .evaluation
      return value.truthy) := by
  rw [evaluate_eq, Language.evaluate, Language.withParsed_eq, Language.parse_eq_read h]
  cases p.language.read expression with
  | error e => rfl
  | ok parsed =>
    have hmap (x : Except ExprError Value) : (x.map Value.truthy).mapError RuleError.evaluation =
        (do let value ← x.mapError .evaluation; return value.truthy) := by
      cases x <;> rfl
    exact hmap (parsed.root.eval p.language.functions context)

theorem process_fst (p : Processor) (payload : Value) (key : Option String) :
    (p.process payload key).1 = (do
      let (expression, context) ← p.prepare payload key
      let result ← (p.evaluate expression context).1
      return ⟨result, expression, context⟩) := by
  unfold process
  split
  · next e h => rw [h]; rfl
  · next expression context h =>
    rw [h]
    split
    · next result p' heval => simp only [bind, Except.bind, heval]; rfl
    · next e p' heval => simp only [bind, Except.bind, heval]

/-- Applying rules changes the processor by an evaluation, if at all. -/
theorem process_snd (p : Processor) (payload : Value) (key : Option String) :
    (p.process payload key).2 = p ∨
      ∃ expression context, (p.process payload key).2 = (p.evaluate expression context).2 := by
  unfold process
  split
  · exact .inl rfl
  · next expression context h =>
    refine .inr ⟨expression, context, ?_⟩
    split
    · next result p' heval => rw [heval]
    · next e p' heval => rw [heval]

/-- Outcomes are a matter of the options, the language and the record under the key. -/
theorem process_congr (hoptions : p.options = q.options) (hlanguage : p.language = q.language)
    {key : Option String} (hcontexts : p.contexts.resolve key = q.contexts.resolve key)
    (payload : Value) : (p.process payload key).1 = (q.process payload key).1 := by
  simp only [process_fst, prepare, evaluate_eq, hoptions, hlanguage, hcontexts]

theorem process_uncached (h : p.language.Faithful) (payload : Value) (key : Option String) :
    (p.process payload key).1 = (p.uncached.process payload key).1 := by
  have huncached : p.uncached.language.Faithful := .of_size_eq_zero rfl
  simp only [process_fst, evaluate_fst h, evaluate_fst huncached]
  rfl

/-- What applying rules leaves behind is in what the language keeps. -/
theorem uncached_process (p : Processor) (payload : Value) (key : Option String) :
    (p.process payload key).2.uncached = p.uncached := by
  rcases p.process_snd payload key with h | ⟨expression, context, h⟩
  · rw [h]
  · rw [h, evaluate_eq]
    simp only [uncached, Language.evaluate, Language.withParsed_eq, Language.uncached_parse]

theorem faithful_process (h : p.language.Faithful) (payload : Value) (key : Option String) :
    (p.process payload key).2.language.Faithful := by
  rcases p.process_snd payload key with hp | ⟨expression, context, hp⟩
  · rwa [hp]
  · rw [hp, evaluate_eq]
    exact h.perform (.evaluate expression context)

end Processor

namespace Service

variable {c : Config} {explain : ByteArray → String} {s t : Service}

/-- What a response says, without its headers. -/
structure Content where
  status : Nat
  body : String
  deriving DecidableEq, Repr

def Response.content (r : Response) : Content := ⟨r.status, r.body⟩

/-- The responses to requests that come one after another. The request at place `i` gets
the identifier `ids i` if it brings none. -/
def responses (s : Service) (ids : Nat → String) : List Request → List Response
  | [] => []
  | r :: rs =>
    (s.respond (ids 0) r).1 :: (s.respond (ids 0) r).2.responses (fun i => ids (i + 1)) rs

/-! ## One request -/

/-- The response to rules that were not too long. -/
def answer : Except Refusal Outcome → Response
  | .ok outcome => jsonResponse 200 (outcomeBody outcome)
  | .error refusal => jsonResponse refusal.status refusal.body

theorem applyRules_fst (s : Service) {r : Request} (h : r.body.size ≤ maxBodySize) :
    (s.applyRules r).1 = answer (do
      let v ← s.payload r.body
      (s.processor.process v r.contextKey?).1.mapError .rules) := by
  rw [applyRules, if_neg (by omega)]
  split
  · next refusal hpayload => rw [hpayload]; rfl
  · next v hpayload =>
    rw [hpayload]
    split
    · next outcome p hprocess => simp only [bind, Except.bind, hprocess]; rfl
    · next e p hprocess => simp only [bind, Except.bind, hprocess]; rfl

theorem applyRules_snd (s : Service) (r : Request) :
    (s.applyRules r).2 = s ∨
      ∃ v, (s.applyRules r).2 = { s with processor := (s.processor.process v r.contextKey?).2 } := by
  unfold applyRules
  split
  · exact .inl rfl
  · split
    · exact .inl rfl
    · next v hv =>
      refine .inr ⟨v, ?_⟩
      split
      · next outcome p hprocess => rw [hprocess]
      · next e p hprocess => rw [hprocess]

/-- A response with what every response to `r` carries. -/
def labelled (fresh : String) (r : Request) (response : Response) : Response :=
  { response with
    headers := response.headers ++
      [("access-control-allow-origin", "*"), ("x-request-id", r.id?.getD fresh)] }

@[simp] theorem content_labelled (fresh : String) (r : Request) (response : Response) :
    (labelled fresh r response).content = response.content := rfl

/-- The identifier of a request stands in the headers alone. -/
theorem content_respond (s : Service) (fresh fresh' : String) (r : Request) :
    (s.respond fresh r).1.content = (s.respond fresh' r).1.content := rfl

/-- Only by a request to apply rules can services be told apart or changed. -/
theorem respond_cases (fresh : String) (r : Request) :
    (∃ response, ∀ s : Service, s.respond fresh r = (response, s)) ∨
      ∀ s : Service, s.respond fresh r =
        (labelled fresh r (s.applyRules r).1, (s.applyRules r).2) := by
  unfold respond dispatch
  split
  · exact .inl ⟨_, fun s => rfl⟩
  · split
    · exact .inl ⟨_, fun s => rfl⟩
    · next route hroute =>
      split
      · cases route with
        | rules => exact .inr fun s => rfl
        | health => exact .inl ⟨_, fun s => rfl⟩
      · exact .inl ⟨_, fun s => rfl⟩

theorem respond_rules (s : Service) (fresh : String) {r : Request} (hmethod : r.method = "POST")
    (hpath : r.path = "/process-rules") :
    s.respond fresh r = (labelled fresh r (s.applyRules r).1, (s.applyRules r).2) := by
  have hoptions : r.method ≠ "OPTIONS" := by
    rw [hmethod]
    decide
  have hallowed : r.method ∈ Route.rules.methods := by
    rw [hmethod]
    decide
  rw [respond, if_neg hoptions, dispatch, hpath]
  simp only [Route.ofPath?, if_pos hallowed]
  rfl

/-- A response shows nothing of the service but the outcome of rules under the key of the
request, and what is said of a body that is no JSON. -/
theorem respond_congr {r : Request} (hexplain : s.explain = t.explain)
    (h : ∀ v, (s.processor.process v r.contextKey?).1 = (t.processor.process v r.contextKey?).1)
    (fresh : String) : (s.respond fresh r).1 = (t.respond fresh r).1 := by
  have hpayload : s.payload r.body = t.payload r.body := by
    simp only [payload, hexplain]
  have happly : (s.applyRules r).1 = (t.applyRules r).1 := by
    -- A body that is too long is refused before anything is looked at.
    by_cases hsize : r.body.size ≤ maxBodySize
    · simp only [applyRules_fst _ hsize, hpayload, h]
    · simp only [applyRules, Nat.lt_of_not_le hsize, if_true]
  obtain ⟨response, hr⟩ | hr := respond_cases fresh r
  · simp only [hr]
  · simp only [hr, happly]

/-- The service was set up from `c`, and what it keeps by now it would read now. -/
structure Serves (c : Config) (explain : ByteArray → String) (s : Service) : Prop where
  uncached : s.processor.uncached = (ofConfig c explain).processor.uncached
  faithful : s.processor.language.Faithful
  explain_eq : s.explain = explain

theorem serves_ofConfig (c : Config) (explain : ByteArray → String) :
    (ofConfig c explain).Serves c explain where
  uncached := rfl
  faithful := .of_size_eq_zero rfl
  explain_eq := rfl

namespace Serves

theorem respond_eq (h : s.Serves c explain) (fresh : String) (r : Request) :
    (s.respond fresh r).1 = ((ofConfig c explain).respond fresh r).1 := by
  refine respond_congr h.explain_eq (fun v => ?_) fresh
  rw [Processor.process_uncached h.faithful, h.uncached,
    ← Processor.process_uncached (serves_ofConfig c explain).faithful]

theorem respond (h : s.Serves c explain) (fresh : String) (r : Request) :
    (s.respond fresh r).2.Serves c explain := by
  have happly : (s.applyRules r).2.Serves c explain := by
    obtain hr | ⟨v, hr⟩ := s.applyRules_snd r
    · rwa [hr]
    · rw [hr]
      exact ⟨(Processor.uncached_process ..).trans h.uncached,
        Processor.faithful_process h.faithful .., h.explain_eq⟩
  obtain ⟨response, hr⟩ | hr := respond_cases fresh r
  · rwa [hr]
  · rwa [hr]

/-! ## Many requests -/

/-- Each of many requests gets the response that a service set up for it alone gives. -/
theorem responses_eq (h : s.Serves c explain) (ids : Nat → String) (rs : List Request) :
    s.responses ids rs = rs.mapIdx fun i r => ((ofConfig c explain).respond (ids i) r).1 := by
  -- The service changes from request to request, and `Serves` is all that stays of it.
  induction rs generalizing s ids with
  | nil => rfl
  | cons r rs ih =>
    rw [responses, List.mapIdx_cons, h.respond_eq, ih (h.respond (ids 0) r)]

end Serves

theorem getElem?_responses (c : Config) (explain : ByteArray → String) (ids : Nat → String)
    {rs : List Request} {i : Nat} {r : Request} (h : rs[i]? = some r) :
    ((ofConfig c explain).responses ids rs)[i]? =
      some ((ofConfig c explain).respond (ids i) r).1 := by
  rw [(serves_ofConfig c explain).responses_eq, List.getElem?_mapIdx, h]
  rfl

end Service

end Criteria
