import FuncScript.Command.Run
import Std.Async.Signal
import Std.Http.Server

/-!
The command line as it runs: reads what the command asks for, lets the library decide, and prints.
The service listens on all addresses and hands each request to the library.
-/

namespace FuncScript.Command

open Std.Async

def systemError : IO.Error → SystemError
  | .noFileOrDirectory _ _ _ => .noEntry
  | .permissionDenied _ _ _ => .accessDenied
  | .resourceBusy _ _ => .addressInUse
  | .inappropriateType _ 21 _ => .isDirectory
  | .inappropriateType _ _ _ => .notDirectory
  | e => ⟨toString e, 0⟩

def readFile (path : String) : IO (Except SystemError ByteArray) := do
  try
    return .ok (← IO.FS.readBinFile path)
  catch e =>
    return .error (systemError e)

def readInput : IO ByteArray := do (← IO.getStdin).readBinToEnd

def environmentFor (invocation : Invocation) : IO Environment := do
  let rateLimit ← IO.getEnv "FUNCDEF_RATE_LIMIT"
  let filter ← IO.getEnv "RUST_LOG"
  let lookup : String → Option String
    | "FUNCDEF_RATE_LIMIT" => rateLimit
    | "RUST_LOG" => filter
    | _ => none
  match invocation with
  | .parse _ flags =>
    match flags.path? with
    | some path =>
      let content ← readFile path
      return ⟨ByteArray.empty, fun _ => content, lookup, fun _ => none⟩
    | none =>
      let input ← readInput
      return ⟨input, fun _ => .error .noEntry, lookup, fun _ => none⟩
  | _ => return ⟨ByteArray.empty, fun _ => .error .noEntry, lookup, fun _ => none⟩

def emit (reports : List Report) : IO Unit := do
  let stderr ← IO.getStderr
  for report in reports do
    stderr.putStr report.text
  stderr.flush

partial def collect (body : Std.Http.Body.Stream) (limit : Nat) (seen : ByteArray) :
    Async ByteArray := do
  match ← body.recv with
  | some chunk =>
    let seen := seen ++ chunk.data
    if limit < seen.size then return seen else collect body limit seen
  | none => return seen

def requestBody (body : Std.Http.Body.Stream) (limit : Nat) : Async RequestBody := do
  try
    return .complete (← collect body limit ByteArray.empty)
  catch e =>
    return .broken (toString e)

def peer (extensions : Std.Http.Extensions) : Address :=
  let text := (extensions.get Std.Http.Server.RemoteAddr).map fun r => toString r.addr.ipAddr
  (text.bind Address.ofString?).getD (.v4 0)

def responseHead (r : Response) : Std.Http.Response.Builder :=
  let status := (Std.Http.Status.ofCode none r.status.toUInt16).getD .internalServerError
  let fields := [("content-type", r.contentType), ("access-control-allow-origin", r.allowOrigin),
    ("access-control-allow-methods", r.allowMethods),
    ("access-control-allow-headers", r.allowHeaders)]
  fields.foldl
    (fun builder field =>
      match field.2 with
      | some value => (builder.header? field.1 value).getD builder
      | none => builder)
    (Std.Http.Response.withStatus status)

instance {α : Type} : Inhabited (Awaited α) := ⟨.elapsed⟩

/-- The limiter is kept in one place; a task runs on its own while the time for it is waited for. -/
def runtime (limiter : IO.Ref RateLimiter) : Runtime Async where
  now := IO.monoNanosNow
  locked access := limiter.modifyGet access
  timeout limit job :=
    Async.race (Awaited.ofResult <$> Async.ofTask (Task.spawn job)) do
      sleep (Std.Time.Millisecond.Offset.ofNat limit)
      return .elapsed

def onRequest (settings : Settings) (limiter : IO.Ref RateLimiter)
    (incoming : Std.Http.Request Std.Http.Body.Stream) :
    Async (Std.Http.Response Std.Http.Body.Full) := do
  let request : Request := {
    method := .ofString (toString incoming.line.method)
    target := toString incoming.line.uri
    body := ← requestBody incoming.body (max settings.bodyLimit settings.maxSourceSize)
    address := peer incoming.extensions }
  let response ← (Service.router settings (runtime limiter)).call request
  (responseHead response).fromBytes response.body.toUTF8

def serveOn (port : Nat) (first : Service) (say : List Report → IO Unit) : Async Unit := do
  let limiter ← IO.mkRef first.limiter
  let address : Std.Net.SocketAddress := .v4 ⟨.ofParts 0 0 0 0, port.toUInt16⟩
  let handler := Std.Http.Server.Handler.ofFn fun incoming => do
    let response : Std.Http.Response Std.Http.Body.Full ← onRequest first.settings limiter incoming
    return response
  let signal ← Signal.Waiter.mk .sigint false
  let server ← Std.Http.Server.serve address handler
  say [listening port]
  let _ ← await (← signal.wait)
  say [interrupted]
  server.shutdownAndWait
  say [closed]

def runServe (env : Environment) (shared : Shared) (flags : ServeFlags) : IO UInt32 := do
  let filter := logFilter env (.serve shared flags)
  let say := fun (reports : List Report) => emit (reports.filter (·.isShown filter))
  let first := service env flags
  say [configured first]
  try
    (serveOn flags.portNumber first say).block
    return 0
  catch e =>
    say (refused shared (systemError e))
    return 1

end FuncScript.Command

open FuncScript.Command in
def main (words : List String) : IO UInt32 := do
  let invocation := Invocation.ofWords words
  let env ← environmentFor invocation
  match invocation with
  | .serve shared flags => runServe env shared flags
  | _ =>
    let outcome := run env words
    IO.print outcome.output
    emit outcome.reports
    return outcome.exit.toUInt32
