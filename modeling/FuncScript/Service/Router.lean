import FuncScript.Service.Endpoint
import FuncScript.Service.Envelope
import FuncScript.Service.Runtime
import FuncScript.Text.Utf8

/-!
The service: scripts are posted to the root, and its state of health is asked for at `/health`. A
preflight question is answered before anything else, then the limiter decides, then the path and
the method choose the answer.
-/

namespace FuncScript

structure Settings where
  maxSourceSize : Nat
  bodyLimit : Nat
  /-- The time for one script, in milliseconds. -/
  timeLimit : Nat
  deriving DecidableEq, Repr

structure Service where
  settings : Settings
  limiter : RateLimiter

namespace Service

variable {m : Type → Type} [Monad m]

def version : String := "0.1.0"

def tooLarge (settings : Settings) : Envelope where
  code := .payloadTooLarge
  message := "source exceeds maximum size of " ++ toString settings.maxSourceSize ++ " bytes"

def invalidPayload (message : String) : Envelope where
  code := .invalidPayload
  message := message

def late (settings : Settings) : Envelope where
  code := .timeout
  message := "parse did not finish within " ++ toString settings.timeLimit ++ " ms"

def source (settings : Settings) : Except Rejection ByteArray → Except Envelope String
  | .error rejection =>
    if rejection.status = 413 then .error (tooLarge settings)
    else .error (invalidPayload ("could not read request body: " ++ rejection.text))
  | .ok bytes =>
    if settings.maxSourceSize < bytes.size then .error (tooLarge settings)
    else
      match Utf8.decode bytes with
      | .ok source => .ok source
      | .error fault =>
        .error (invalidPayload ("request body is not valid UTF-8: " ++ fault.message))

def parsing (source : String) : Job (Except ScriptError Definition) :=
  fun _ => .ok (Script.parse {} source)

def parsed (settings : Settings) : Awaited (Except ScriptError Definition) → Envelope
  | .finished (.ok definition) => { code := .ok, data := some definition }
  | .finished (.error (.malformed e)) =>
    { code := .syntaxError, message := e.message, error := some e }
  | .finished (.error e) => { code := .internalError, message := e.message }
  | .failed cause => { code := .internalError, message := "parse task failed: " ++ cause }
  | .elapsed => late settings

def parseBody (settings : Settings) (runtime : Runtime m) (body : Except Rejection ByteArray) :
    m Envelope := do
  match source settings body with
  | .error refusal => return refusal
  | .ok source => return parsed settings (← runtime.timeout settings.timeLimit (parsing source))

def parse (settings : Settings) (runtime : Runtime m) : Endpoint m := fun r =>
  return .ofEnvelope (← parseBody settings runtime r.bytes)

def health : Endpoint m := fun _ =>
  return .ofJson 200 (.object [("status", .string "ok"), ("version", .string version)])

def notFound : Endpoint m := fun _ =>
  return .ofEnvelope { code := .notFound, message := "not found" }

def methodNotAllowed : Endpoint m := fun _ =>
  return .ofEnvelope { code := .methodNotAllowed, message := "method not allowed" }

def refusal (seconds : Nat) : Response :=
  .ofEnvelope { code := .rateLimited, message := "rate limit exceeded", retryAfter := some seconds }

def rateLimited (runtime : Runtime m) : Layer m := fun next r => do
  let now ← runtime.now
  match ← runtime.locked (·.check r.address now) with
  | .allowed => next r
  | .retryAfter seconds => return refusal seconds

def preflight : Response := ⟨200, "", none, some "*", some "GET,POST", some "*"⟩

def cors : Layer m := fun next r => do
  if r.method = .options then return preflight
  return { ← next r with allowOrigin := some "*" }

def limitBody (limit : Nat) : Layer m := fun next r => next { r with bodyLimit := limit }

def traced : Layer m := fun next r => next r

def routes (settings : Settings) (runtime : Runtime m) : Router m :=
  Router.new
    |>.route "/" (.orElse (.post (parse settings runtime)) methodNotAllowed)
    |>.route "/health" (.orElse (.get health) methodNotAllowed)
    |>.orElse notFound

/-- Preflight questions are answered outside of the limiter, which counts all else, whatever becomes
of it. -/
def router (settings : Settings) (runtime : Runtime m) : Router m :=
  routes settings runtime
    |>.layer (rateLimited runtime)
    |>.layer cors
    |>.layer (limitBody settings.bodyLimit)
    |>.layer traced

end Service

/-- A request, with the time at which it comes in and what becomes of its tasks. -/
structure Arrival where
  time : Nat
  schedule : Schedule
  request : Request

def Arrival.runtime (a : Arrival) : Runtime (StateM RateLimiter) where
  now := pure a.time
  locked := modifyGet
  timeout limit job := pure (a.schedule.timeout limit job)

namespace Service

def handle (service : Service) (a : Arrival) : Response × Service :=
  let (response, limiter) := (router service.settings a.runtime).call a.request service.limiter
  (response, { service with limiter })

def serve (service : Service) : List Arrival → List Response × Service
  | [] => ([], service)
  | a :: rest =>
    let (response, next) := service.handle a
    let (responses, last) := next.serve rest
    (response :: responses, last)

def run (service : Service) (requests : List (Nat × Request)) : List Response × Service :=
  service.serve (requests.map fun p => ⟨p.1, .steady Schedule.millisecond, p.2⟩)

end Service

end FuncScript
