import FuncScript.Command.Environment
import FuncScript.Command.Outcome

namespace FuncScript.Command

def defaultPort : Nat := 3000

def defaultMaxSourceSize : Nat := 65536

def defaultTimeoutMs : Nat := 2000

def defaultRateLimit : Nat := 60

def ServeFlags.portNumber (flags : ServeFlags) : Nat := flags.port.getD defaultPort

def ServeFlags.settings (flags : ServeFlags) : Settings where
  maxSourceSize := flags.maxSourceSize.getD defaultMaxSourceSize
  bodyLimit := flags.maxSourceSize.getD defaultMaxSourceSize
  timeLimit := flags.timeoutMs.getD defaultTimeoutMs

/-- Requests of one address in a minute. A variable that is no number counts as unset. -/
def rateLimit (env : Environment) : Nat :=
  ((env.lookup "FUNCDEF_RATE_LIMIT").bind word64?).getD defaultRateLimit

def service (env : Environment) (flags : ServeFlags) : Service where
  settings := flags.settings
  limiter := { maxRequests := rateLimit env, length := 60 * RateLimiter.second }

def serveEvent (message : String) (fields : List (String × String)) : Report :=
  .event ⟨.info, "funcdef::serve", message, fields⟩

def configured (s : Service) : Report :=
  serveEvent "server configuration"
    [("rate_limit", toString s.limiter.maxRequests),
      ("max_source_size", toString s.settings.maxSourceSize),
      ("timeout_ms", toString s.settings.timeLimit)]

def listening (port : Nat) : Report :=
  serveEvent ("funcdef listening on http://0.0.0.0:" ++ toString port) []

def interrupted : Report := serveEvent "received shutdown signal" []

def closed : Report := serveEvent "server shut down" []

def refused (shared : Shared) (e : SystemError) : List Report :=
  .event ⟨.error, "funcdef", "server error", [("error", e.message)]⟩ ::
    Report.failure shared.format shared.quiet ("Server error: " ++ e.message)

def serve (env : Environment) (shared : Shared) (flags : ServeFlags) : Outcome :=
  let opening := configured (service env flags)
  match env.refusal flags.portNumber with
  | some e => { exit := 1, reports := opening :: refused shared e }
  | none =>
    { exit := 0, reports := [opening, listening flags.portNumber, interrupted, closed] }

end FuncScript.Command
