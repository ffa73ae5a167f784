import FuncScript.Proofs.Serving.Answers

/-!
What the layers of the service come to. Each route keeps the layers in the order in which they are laid
around it: a preflight question is answered by the layer outside of the limiter, and a request that the
limiter lets through gets the answer of its route.
-/

namespace FuncScript

namespace Router

variable {m : Type → Type}

theorem find_layer (router : Router m) (around : Layer m) (path : String) :
    (router.layer around).find path = around (router.find path) := by
  have hlookup : ∀ routes : List (String × Endpoint m),
      (routes.map fun route => (route.1, around route.2)).lookup path =
        (routes.lookup path).map around := by
    intro routes
    induction routes with
    | nil => rfl
    | cons route routes ih =>
      obtain ⟨key, endpoint⟩ := route
      simp only [List.map_cons, List.lookup_cons]
      cases path == key with
      | true => rfl
      | false => exact ih
  simp only [find, layer, hlookup, Option.getD_map]

end Router

namespace Service

variable {service : Service} {a : Arrival}

theorem parseBody_eq (settings : Settings) (a : Arrival) (body : Except Rejection ByteArray) :
    parseBody settings a.runtime body = pure (match source settings body with
      | .error refusal => refusal
      | .ok text => parsed settings (a.schedule.timeout settings.timeLimit (parsing text))) := by
  unfold parseBody
  cases source settings body <;> rfl

theorem find_routes {m : Type → Type} [Monad m] (settings : Settings) (runtime : Runtime m)
    (path : String) : (routes settings runtime).find path =
      if path = "/" then ((MethodRouter.post (parse settings runtime)).orElse methodNotAllowed).endpoint
      else if path = "/health" then ((MethodRouter.get health).orElse methodNotAllowed).endpoint
      else notFound := by
  simp only [routes, Router.find, Router.orElse, Router.route, Router.new, List.nil_append,
    List.cons_append]
  by_cases hroot : path = "/"
  · rw [if_pos hroot, hroot]
    rfl
  · rw [if_neg hroot, List.lookup_cons, beq_false_of_ne hroot]
    by_cases hhealth : path = "/health"
    · rw [if_pos hhealth, hhealth]
      rfl
    · rw [if_neg hhealth, List.lookup_cons, beq_false_of_ne hhealth]
      rfl

theorem find_routes_answer (settings : Settings) (a : Arrival) (r : Request) :
    (routes settings a.runtime).find r.path ⟨r, settings.bodyLimit⟩ =
      pure (answer settings a.schedule r) := by
  rw [find_routes, answer]
  split
  · simp only [MethodRouter.endpoint, MethodRouter.orElse, MethodRouter.post, List.mem_singleton,
      parse, parseBody_eq, posted]
    split <;> rfl
  · split
    · simp only [MethodRouter.endpoint, MethodRouter.orElse, MethodRouter.get, List.mem_cons,
        List.not_mem_nil, or_false]
      split <;> rfl
    · rfl

theorem find_router {m : Type → Type} [Monad m] (settings : Settings) (runtime : Runtime m)
    (path : String) : (router settings runtime).find path =
      traced (limitBody settings.bodyLimit
        (cors (rateLimited runtime ((routes settings runtime).find path)))) := by
  simp only [router, Router.find_layer]

theorem handle_options (h : a.request.method = .options) :
    service.handle a = (preflight, service) := by
  rw [handle, Router.call, find_router]
  simp only [traced, limitBody, cors, h]
  rfl

theorem rateLimited_run (a : Arrival) (next : Endpoint (StateM RateLimiter)) (r : Incoming)
    (limiter : RateLimiter) : rateLimited a.runtime next r limiter =
      (match (limiter.check r.address a.time).1 with
        | .allowed => next r
        | .retryAfter seconds => pure (refusal seconds)) (limiter.check r.address a.time).2 := rfl

theorem handle_eq_limited (h : a.request.method ≠ .options) :
    let reached := rateLimited a.runtime ((routes service.settings a.runtime).find a.request.path)
      ⟨a.request, service.settings.bodyLimit⟩ service.limiter
    service.handle a = (sent a.request reached.1, { service with limiter := reached.2 }) := by
  rw [handle, Router.call, find_router]
  simp only [traced, limitBody, cors, if_neg h, sent]
  by_cases hhead : a.request.method = .head
  · simp only [hhead, if_true]
    rfl
  · simp only [hhead, if_false]
    rfl

theorem handle_of_ne (h : a.request.method ≠ .options) :
    service.handle a =
      (sent a.request (match (service.limiter.check a.request.address a.time).1 with
        | .allowed => answer service.settings a.schedule a.request
        | .retryAfter seconds => refusal seconds),
      { service with limiter := (service.limiter.check a.request.address a.time).2 }) := by
  rw [handle_eq_limited h, rateLimited_run, find_routes_answer]
  cases (service.limiter.check a.request.address a.time).1 <;> rfl

end Service

end FuncScript
