import Criteria.Config.Basic
import Criteria.Rule.Processor
import Criteria.Service.Message
import Criteria.Service.Refusal

/-!
# The service

The service applies the rules in the bodies of requests and says whether it is alive.
It is set up once from a configuration; afterwards only the expressions that its
processor keeps change from request to request, and they change no answer.

Every response carries the identifier of its request, a fresh one where the client gave
none, and lets pages from everywhere use it.
-/

namespace Criteria

open Service (Request Response Refusal)

/-- A processor of rules, and what the reader of JSON says of a body that is none. -/
structure Service where
  processor : Processor
  explain : ByteArray → String

namespace Service

/-! ## Set-up -/

def compileOptions (c : Config.Compiler) : CompileOptions :=
  ⟨if c.typedLiterals then .typed else .quoted, c.escapeStrings⟩

/-- Without records under keys, one record serves every request. -/
def contextSource (c : Config.Context) : ContextSource :=
  let standard := c.standard.getD ContextSource.sample
  if c.subjects.isEmpty then .fixed standard
  else .keyed c.subjects (if c.fallback then some standard else none)

/-- The service that `c` describes. Unless told otherwise, it does not say why a body is
no JSON. -/
def ofConfig (c : Config) (explain : ByteArray → String := fun _ => Json.Fault.malformed.text) :
    Service :=
  ⟨.standard (compileOptions c.compiler) (contextSource c.context), explain⟩

/-! ## Routes -/

/-- What can be asked for. -/
inductive Route where
  | rules
  | health
  deriving DecidableEq, Repr

namespace Route

def ofPath? (path : String) : Option Route :=
  match path with
  | "/process-rules" => some rules
  | "/health" => some health
  | _ => none

def methods : Route → List String
  | rules => ["POST"]
  | health => ["GET", "HEAD"]

/-- The header that names the methods of a route. -/
def allowed (r : Route) : String × String :=
  ("allow", String.intercalate "," r.methods)

end Route

/-! ## Responses -/

def jsonResponse (status : Nat) (body : String) : Response :=
  ⟨status, [("content-type", "application/json")], body⟩

def textResponse (status : Nat) (body : String) : Response :=
  ⟨status, [("content-type", "text/plain; charset=utf-8")], body⟩

/-- The text that a client gets for rules that could be applied. -/
def outcomeBody (o : Outcome) : String :=
  Json.object [("result", if o.result then "true" else "false"),
    ("expression", Json.string o.expression), ("context", Json.print (.object o.context))]

/-- The most bytes that the body of a request may have. -/
def maxBodySize : Nat := 2 * 1024 * 1024

/-- The object that a body is. -/
def payload (s : Service) (body : ByteArray) : Except Refusal Value :=
  match (String.fromUTF8? body).map Json.read with
  | some (.ok (.object entries)) => .ok (.object entries)
  | some (.ok _) => .error .notObject
  | some (.error _) | none => .error (.notJson (s.explain body))

/-- The response to rules, and the service after them. -/
def applyRules (s : Service) (r : Request) : Response × Service :=
  if maxBodySize < r.body.size then
    (textResponse 413 "Failed to buffer the request body: length limit exceeded", s)
  else
    match s.payload r.body with
    | .error refusal => (jsonResponse refusal.status refusal.body, s)
    | .ok v =>
      match s.processor.process v r.contextKey? with
      | (.ok outcome, p) => (jsonResponse 200 (outcomeBody outcome), { s with processor := p })
      | (.error e, p) =>
        (jsonResponse (Refusal.rules e).status (Refusal.rules e).body, { s with processor := p })

/-- The response to a request for a route by one of its methods. -/
def serve (s : Service) (route : Route) (r : Request) : Response × Service :=
  match route with
  | .rules => s.applyRules r
  | .health => (textResponse 200 (if r.method = "HEAD" then "" else "OK"), s)

/-- The response to a request, as far as the request is not about what is allowed. -/
def dispatch (s : Service) (r : Request) : Response × Service :=
  match Route.ofPath? r.path with
  | none => (⟨404, [], ""⟩, s)
  | some route =>
    if r.method ∈ route.methods then s.serve route r
    else (⟨405, [route.allowed], ""⟩, s)

/-- The response to the question of what is allowed. -/
def permissions (r : Request) : Response :=
  ⟨200, ("access-control-allow-methods", "*") :: ((Route.ofPath? r.path).map Route.allowed).toList,
    ""⟩

/-- The response to a request, which gets the identifier `fresh` if it brings none, and
the service after it. -/
def respond (s : Service) (fresh : String) (r : Request) : Response × Service :=
  let (response, s) := if r.method = "OPTIONS" then (permissions r, s) else s.dispatch r
  ({ response with
      headers := response.headers ++
        [("access-control-allow-origin", "*"), ("x-request-id", r.id?.getD fresh)] }, s)

end Service

end Criteria
