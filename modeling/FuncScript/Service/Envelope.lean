import FuncScript.Json.Encoding
import FuncScript.Service.Message

/-!
The envelope of every answer: a code with a message, then the data or the error if there is one.
-/

namespace FuncScript

inductive Code where
  | ok
  | syntaxError
  | invalidPayload
  | payloadTooLarge
  | timeout
  | rateLimited
  | notFound
  | methodNotAllowed
  | internalError
  deriving DecidableEq, Repr

namespace Code

def text : Code → String
  | .ok => "OK"
  | .syntaxError => "SYNTAX_ERROR"
  | .invalidPayload => "INVALID_PAYLOAD"
  | .payloadTooLarge => "PAYLOAD_TOO_LARGE"
  | .timeout => "TIMEOUT"
  | .rateLimited => "RATE_LIMITED"
  | .notFound => "NOT_FOUND"
  | .methodNotAllowed => "METHOD_NOT_ALLOWED"
  | .internalError => "INTERNAL_ERROR"

def status : Code → Nat
  | .ok => 200
  | .syntaxError => 400
  | .invalidPayload => 400
  | .payloadTooLarge => 413
  | .timeout => 503
  | .rateLimited => 429
  | .notFound => 404
  | .methodNotAllowed => 405
  | .internalError => 500

end Code

structure Envelope where
  code : Code
  message : String := ""
  data : Option Definition := none
  error : Option SyntaxError := none
  retryAfter : Option Nat := none

namespace Envelope

def toJson (e : Envelope) : Json :=
  .object ([("result",
      .object [("code", .string e.code.text), ("message", .string e.message)])] ++
    (e.data.map fun d => ("data", d.toJson)).toList ++
    (e.error.map fun s => ("error", s.toJson)).toList ++
    (e.retryAfter.map fun n => ("retry_after", .natural n)).toList)

end Envelope

namespace Response

def ofJson (status : Nat) (body : Json) : Response :=
  ⟨status, body.compact, some "application/json", none, none, none⟩

def ofEnvelope (e : Envelope) : Response := ofJson e.code.status e.toJson

end Response

end FuncScript
