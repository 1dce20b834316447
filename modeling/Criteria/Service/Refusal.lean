import Criteria.Rule.Error

/-!
# Refusals

Why a request to apply rules gets no result. The client learns it three times: by the
status, by a code for programs and by a message for people. A body that is no JSON is
refused with what its reader says of it.
-/

namespace Criteria.Service

inductive Refusal where
  | notJson (reason : String)
  | notObject
  | rules (e : RuleError)
  deriving DecidableEq, Repr

namespace Refusal

def status : Refusal → Nat
  | notJson _ | notObject | rules .invalidPayload | rules (.json _) => 400
  | rules (.contextUnavailable _) => 404
  | rules (.malformed _) | rules (.evaluation _) => 422

def code : Refusal → String
  | notJson _ | notObject | rules (.json _) => "INVALID_JSON"
  | rules .invalidPayload => "INVALID_PAYLOAD"
  | rules (.malformed _) => "MALFORMED_RULE"
  | rules (.evaluation _) => "EVALUATION_FAILED"
  | rules (.contextUnavailable _) => "CONTEXT_NOT_FOUND"

/-- The wording for a body that is not the JSON text of an object. -/
def invalidBody (reason : String) : String :=
  "请求体不是合法的 JSON 对象: " ++ reason

def message : Refusal → String
  | notJson reason => invalidBody reason
  | notObject => invalidBody "顶层必须是对象"
  | rules (.json fault) => invalidBody fault.text
  | rules e => e.message

/-- The text that a client gets. -/
def body (r : Refusal) : String :=
  Json.object [("success", "false"), ("code", Json.string r.code),
    ("message", Json.string r.message), ("data", "null")]

end Refusal

end Criteria.Service
