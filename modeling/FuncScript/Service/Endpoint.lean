import FuncScript.Service.Message

/-!
Endpoints, and how a router is put together from them. Layers are laid around all routes that a router
has so far, so the last layer is the outermost.
-/

namespace FuncScript

structure Incoming extends Request where
  bodyLimit : Nat := 2097152

structure Rejection where
  status : Nat
  text : String

namespace Rejection

def unreadable (status : Nat) (cause : String) : Rejection :=
  ⟨status, "Failed to buffer the request body: " ++ cause⟩

end Rejection

def Incoming.bytes (r : Incoming) : Except Rejection ByteArray :=
  match r.body with
  | .broken cause => .error (.unreadable 400 cause)
  | .complete bytes =>
    if r.bodyLimit < bytes.size then .error (.unreadable 413 "length limit exceeded") else .ok bytes

abbrev Endpoint (m : Type → Type) := Incoming → m Response

abbrev Layer (m : Type → Type) := Endpoint m → Endpoint m

structure MethodRouter (m : Type → Type) where
  methods : List Method
  handler : Endpoint m
  fallback : Endpoint m

namespace MethodRouter

variable {m : Type → Type} [Monad m]

def refuse : Endpoint m := fun _ => pure ⟨405, "", none, none, none, none⟩

/-- Who may get a thing may ask for its head. -/
def get (handler : Endpoint m) : MethodRouter m := ⟨[.get, .head], handler, refuse⟩

def post (handler : Endpoint m) : MethodRouter m := ⟨[.post], handler, refuse⟩

def orElse (router : MethodRouter m) (fallback : Endpoint m) : MethodRouter m :=
  { router with fallback }

def endpoint (router : MethodRouter m) : Endpoint m := fun r =>
  if r.method ∈ router.methods then router.handler r else router.fallback r

end MethodRouter

structure Router (m : Type → Type) where
  routes : List (String × Endpoint m)
  fallback : Endpoint m

namespace Router

variable {m : Type → Type} [Monad m]

def new : Router m := ⟨[], fun _ => pure ⟨404, "", none, none, none, none⟩⟩

def route (router : Router m) (path : String) (methods : MethodRouter m) : Router m :=
  { router with routes := router.routes ++ [(path, methods.endpoint)] }

def orElse (router : Router m) (fallback : Endpoint m) : Router m := { router with fallback }

def layer (router : Router m) (around : Layer m) : Router m where
  routes := router.routes.map fun route => (route.1, around route.2)
  fallback := around router.fallback

def find (router : Router m) (path : String) : Endpoint m :=
  (router.routes.lookup path).getD router.fallback

/-- The answer to a request; of that to HEAD only the head is sent. -/
def call (router : Router m) (r : Request) : m Response := do
  let response ← router.find r.path { r with }
  return if r.method = .head then response.withoutBody else response

end Router

end FuncScript
