import FuncScript.Proofs.Limiting.Calls
import FuncScript.Proofs.Serving.Layers

/-!
A run of the service inside one window of the limiter. Every address has its own budget, which all
of its requests draw on except for preflight questions, and no answer tells of other requests.
-/

namespace FuncScript

namespace RateLimiter

variable {l : RateLimiter} {a : Address} {c : Call} {calls : List Call} {first : Nat}
  {count : Address → Nat}

/-- No window has run out since the first time: each has counted all calls of its address. -/
structure Counting (l : RateLimiter) (first : Nat) (count : Address → Nat) : Prop where
  tidy : l.Tidy
  window : ∀ a, l.window? a = none ∧ count a = 0 ∨
    ∃ start, first ≤ start ∧ l.window? a = some ⟨count a, start⟩

theorem counting_fresh (maxRequests length first : Nat) :
    ({ maxRequests, length } : RateLimiter).Counting first fun _ => 0 :=
  ⟨tidy_fresh maxRequests length, fun _ => .inl ⟨rfl, rfl⟩⟩

theorem isOpen_of_first {start n : Nat} (hstart : first ≤ start)
    (hlast : c.time < first + l.length) (hfirst : first ≤ c.time) :
    l.isOpen c.time ⟨n, start⟩ = true := by
  rw [isOpen_iff]
  dsimp only
  omega

theorem Counting.counted (h : l.Counting first count) (hfirst : first ≤ c.time)
    (hlast : c.time < first + l.length) :
    ∃ start, first ≤ start ∧ l.counted c = ⟨count c.address + 1, start⟩ := by
  rcases h.window c.address with ⟨hw, hcount⟩ | ⟨start, hstart, hw⟩
  · refine ⟨c.time, hfirst, ?_⟩
    rw [RateLimiter.counted, hw, hcount]
    rfl
  · refine ⟨start, hstart, ?_⟩
    rw [RateLimiter.counted, hw, Option.filter_some,
      if_pos (isOpen_of_first hstart hlast hfirst)]

theorem Counting.next (h : l.Counting first count) (hfirst : first ≤ c.time)
    (hlast : c.time < first + l.length) : (l.next c).Counting first fun a =>
      if c.address = a then count a + 1 else count a := by
  refine ⟨h.tidy.next c, fun a => ?_⟩
  by_cases ha : c.address = a
  · subst ha
    obtain ⟨start, hstart, hcounted⟩ := h.counted hfirst hlast
    refine .inr ⟨start, hstart, ?_⟩
    rw [window?_next h.tidy, if_pos rfl, hcounted, if_pos rfl]
  · rw [window?_next h.tidy, if_neg (Ne.symm ha), if_neg ha]
    rcases h.window a with ⟨hw, hcount⟩ | ⟨start, hstart, hw⟩
    · exact .inl ⟨by rw [hw, Option.filter_none], hcount⟩
    · refine .inr ⟨start, hstart, ?_⟩
      rw [hw, Option.filter_some, if_pos (isOpen_of_first hstart hlast hfirst)]

theorem Counting.verdict (h : l.Counting first count) (hfirst : first ≤ c.time)
    (hlast : c.time < first + l.length) :
    (count c.address < l.maxRequests → (l.check c.address c.time).1 = .allowed) ∧
      (l.maxRequests ≤ count c.address →
        ∃ seconds, (l.check c.address c.time).1 = .retryAfter seconds) := by
  obtain ⟨start, _, hcounted⟩ := h.counted hfirst hlast
  rw [check_fst h.tidy, hcounted, RateLimiter.verdict]
  constructor
  · intro hlt
    exact if_neg (Nat.not_lt.mpr hlt)
  · intro hle
    exact ⟨_, if_pos (Nat.lt_succ_of_le hle)⟩

end RateLimiter

namespace Service

variable {service : Service} {a : Arrival} {arrivals : List Arrival} {first : Nat}
  {count : Address → Nat}

/-- How many requests draw on the budget of an address. -/
def spent (address : Address) (arrivals : List Arrival) : Nat :=
  arrivals.countP fun a => decide (a.request.address = address ∧ a.request.method ≠ .options)

theorem spent_cons (address : Address) (a : Arrival) (arrivals : List Arrival) :
    spent address (a :: arrivals) = spent address arrivals +
      if a.request.address = address ∧ a.request.method ≠ .options then 1 else 0 := by
  simp only [spent, List.countP_cons, decide_eq_true_eq]

structure Like (service other : Service) : Prop where
  settings : service.settings = other.settings
  maxRequests : service.limiter.maxRequests = other.limiter.maxRequests
  length : service.limiter.length = other.limiter.length

theorem like_handle (service : Service) (a : Arrival) : (service.handle a).2.Like service := by
  by_cases h : a.request.method = .options
  · rw [handle_options h]
    exact ⟨rfl, rfl, rfl⟩
  · rw [handle_of_ne h]
    exact ⟨rfl, rfl, rfl⟩

theorem serve_cons (service : Service) (a : Arrival) (rest : List Arrival) :
    service.serve (a :: rest) =
      ((service.handle a).1 :: ((service.handle a).2.serve rest).1,
        ((service.handle a).2.serve rest).2) := rfl

theorem serve_getElem? (service : Service) (before behind : List Arrival) (a : Arrival) :
    (service.serve (before ++ a :: behind)).1[before.length]? =
      some ((service.serve before).2.handle a).1 := by
  induction before generalizing service with
  | nil => rfl
  | cons b before ih =>
    rw [List.cons_append, serve_cons, serve_cons, List.length_cons, List.getElem?_cons_succ]
    exact ih (service.handle b).2

theorem like_serve (service : Service) (arrivals : List Arrival) :
    (service.serve arrivals).2.Like service := by
  induction arrivals generalizing service with
  | nil => exact ⟨rfl, rfl, rfl⟩
  | cons a arrivals ih =>
    have hlike := like_handle service a
    have hrest := ih (service.handle a).2
    exact ⟨hrest.settings.trans hlike.settings, hrest.maxRequests.trans hlike.maxRequests,
      hrest.length.trans hlike.length⟩

theorem counting_handle (h : service.limiter.Counting first count) (hfirst : first ≤ a.time)
    (hlast : a.time < first + service.limiter.length) :
    (service.handle a).2.limiter.Counting first fun address =>
      count address + if a.request.address = address ∧ a.request.method ≠ .options then 1 else 0 := by
  by_cases hoptions : a.request.method = .options
  · rw [handle_options hoptions]
    simpa [hoptions] using h
  · rw [handle_of_ne hoptions]
    have hnext := h.next (c := ⟨a.request.address, a.time⟩) hfirst hlast
    have heq : (fun address => if a.request.address = address then count address + 1
        else count address) = fun address => count address +
          if a.request.address = address ∧ a.request.method ≠ .options then 1 else 0 := by
      funext address
      by_cases ha : a.request.address = address <;> simp [ha, hoptions]
    exact heq ▸ hnext

theorem counting_serve (h : service.limiter.Counting first count)
    (htimes : ∀ a ∈ arrivals, first ≤ a.time ∧ a.time < first + service.limiter.length) :
    (service.serve arrivals).2.limiter.Counting first fun address =>
      count address + spent address arrivals := by
  induction arrivals generalizing service count with
  | nil => exact h
  | cons a arrivals ih =>
    obtain ⟨hfirst, hlast⟩ := htimes a List.mem_cons_self
    have hnext := counting_handle h hfirst hlast
    have htail : ∀ b ∈ arrivals, first ≤ b.time ∧
        b.time < first + (service.handle a).2.limiter.length := by
      intro b hb
      rw [(like_handle service a).length]
      exact htimes b (List.mem_cons_of_mem a hb)
    have hrest := ih hnext htail
    have heq : (fun address => count address +
        (if a.request.address = address ∧ a.request.method ≠ .options then 1 else 0) +
          spent address arrivals) = fun address => count address + spent address (a :: arrivals) := by
      funext address
      rw [spent_cons]
      omega
    exact heq ▸ hrest

/-- The response to a request of an address whose budget has been drawn on so often. -/
structure Served (reply : Nat → Nat → Request → Response) (settings : Settings)
    (budget drawn : Nat) (a : Arrival) (response : Response) : Prop where
  preflight : a.request.method = .options → response.status = 200
  allowed : a.request.method ≠ .options → drawn < budget →
    ¬ Overdue settings a.schedule a.request →
      response = reply settings.maxSourceSize settings.bodyLimit a.request
  late : a.request.method ≠ .options → drawn < budget → Overdue settings a.schedule a.request →
    Brings a.request 503 (late settings) response
  overdue : Overdue settings a.schedule a.request → ∃ text : String, Posts a.request text.toUTF8 ∧
    settings.timeLimit * Schedule.millisecond ≤ a.schedule.duration (parsing text)
  refused : a.request.method ≠ .options → budget ≤ drawn → ∃ seconds,
    Brings a.request 429 ⟨.rateLimited, "rate limit exceeded", none, none, some seconds⟩ response

def reply (maxSourceSize bodyLimit : Nat) (r : Request) : Response :=
  sent r (answer ⟨maxSourceSize, bodyLimit, 1⟩ (.steady 0) r)

theorem not_overdue_steady (maxSourceSize bodyLimit : Nat) (r : Request) :
    ¬ Overdue ⟨maxSourceSize, bodyLimit, 1⟩ (.steady 0) r := by
  rintro ⟨text, _, _, hlate⟩
  exact (Schedule.documented_steady 0).prompt 1 (parsing text) (Nat.zero_lt_succ _) hlate

theorem owed_reply (maxSourceSize bodyLimit : Nat) (r : Request) :
    Owed maxSourceSize bodyLimit r (reply maxSourceSize bodyLimit r) :=
  owed_sent (Schedule.documented_steady 0) (not_overdue_steady maxSourceSize bodyLimit r)

theorem sent_eq_reply {settings : Settings} {schedule : Schedule} {r : Request}
    (hdoc : schedule.Documented) (hdue : ¬ Overdue settings schedule r) :
    sent r (answer settings schedule r) = reply settings.maxSourceSize settings.bodyLimit r :=
  congrArg (sent r) (answer_congr hdoc (Schedule.documented_steady 0) rfl rfl hdue
    (not_overdue_steady _ _ _))

theorem served_handle (h : service.limiter.Counting first count) (hfirst : first ≤ a.time)
    (hlast : a.time < first + service.limiter.length) (hdoc : a.schedule.Documented) :
    Served reply service.settings service.limiter.maxRequests (count a.request.address) a
      (service.handle a).1 := by
  obtain ⟨hallowed, hrefused⟩ := h.verdict (c := ⟨a.request.address, a.time⟩) hfirst hlast
  constructor
  case preflight =>
    intro hm
    rw [handle_options hm]
    rfl
  case allowed =>
    intro hm hlt hdue
    rw [handle_of_ne hm]
    dsimp only
    rw [hallowed hlt]
    exact sent_eq_reply hdoc hdue
  case late =>
    intro hm hlt hdue
    rw [handle_of_ne hm]
    dsimp only
    rw [hallowed hlt]
    exact brings_late hdue
  case overdue =>
    rintro ⟨text, hposts, _, hlate⟩
    exact ⟨text, hposts, Nat.not_lt.mp fun hlt =>
      hdoc.prompt service.settings.timeLimit (parsing text) hlt hlate⟩
  case refused =>
    intro hm hle
    obtain ⟨seconds, hverdict⟩ := hrefused hle
    refine ⟨seconds, ?_⟩
    rw [handle_of_ne hm]
    dsimp only
    rw [hverdict]
    exact brings_sent rfl

/-- Inside one window, every preflight question is answered, of the other requests of an address as
many are let through as its budget has and the rest is refused. What a request gets that is let
through follows from the request and the size limits, unless parsing a script is given up, which it is
not before the time for it is up. -/
theorem serve_within_window : ∃ reply : Nat → Nat → Request → Response,
    (∀ maxSourceSize bodyLimit r, r.method ≠ .options →
      Owed maxSourceSize bodyLimit r (reply maxSourceSize bodyLimit r)) ∧
    ∀ (settings : Settings) (budget length first : Nat) (arrivals : List Arrival),
      (∀ a ∈ arrivals, first ≤ a.time ∧ a.time < first + length) →
      (∀ a ∈ arrivals, a.schedule.Documented) →
      ∀ before a behind, arrivals = before ++ a :: behind →
        ∃ response,
          (serve ⟨settings, ⟨budget, length, []⟩⟩ arrivals).1[before.length]? = some response ∧
            Served reply settings budget (spent a.request.address before) a response := by
  refine ⟨reply, fun maxSourceSize bodyLimit r _ => owed_reply maxSourceSize bodyLimit r, ?_⟩
  rintro settings budget length first _ htimes hdoc before a behind rfl
  let service : Service := ⟨settings, ⟨budget, length, []⟩⟩
  have hbefore : ∀ b ∈ before, first ≤ b.time ∧ b.time < first + service.limiter.length :=
    fun b hb => htimes b (List.mem_append_left _ hb)
  -- The limiter counts exactly the requests that draw on budgets, so its verdict goes by `spent`.
  have hcounting := counting_serve (RateLimiter.counting_fresh budget length first) hbefore
  obtain ⟨hsettings, hmax, hlength⟩ := like_serve service before
  obtain ⟨hfirst, hlast⟩ := htimes a (by simp)
  have hserved := served_handle hcounting hfirst (by rw [hlength]; exact hlast) (hdoc a (by simp))
  rw [hsettings, hmax, Nat.zero_add] at hserved
  exact ⟨_, serve_getElem? service before behind a, hserved⟩

theorem serve_within_window_mixed :
    let client : Address := .v4 1
    let text := "FUNC f() BEGIN END @k=\"v\";"
    let ask : Arrival := ⟨0, .steady 0, ⟨.options, "/", .complete .empty, client⟩⟩
    let visit : Arrival := ⟨1, .steady 0, ⟨.get, "/nowhere", .complete .empty, client⟩⟩
    let again : Arrival := ⟨2, .steady 0, ⟨.get, "/health", .complete .empty, client⟩⟩
    let quick : Arrival := ⟨3, .steady 1000, posting text (.v4 2)⟩
    let slow : Arrival := ⟨4, .steady 1000000000, posting text (.v4 3)⟩
    let responses := (serve ⟨⟨1024, 1024, 1⟩, ⟨1, 60000, []⟩⟩ [ask, visit, again, quick, slow]).1
    ∃ first second third fourth fifth, responses[0]? = some first ∧ first.status = 200 ∧
      responses[1]? = some second ∧ second.status = 404 ∧
      responses[2]? = some third ∧ third.status = 429 ∧
      responses[3]? = some fourth ∧ fourth.status = 200 ∧
      responses[4]? = some fifth ∧ fifth.status = 503 := by
  intro client text ask visit again quick slow responses
  obtain ⟨reply, howed, hserve⟩ := serve_within_window
  have hserved := hserve ⟨1024, 1024, 1⟩ 1 60000 0 [ask, visit, again, quick, slow]
    (by simp [ask, visit, again, quick, slow])
    (by
      simp only [List.forall_mem_cons, ask, visit, again, quick, slow]
      exact ⟨Schedule.documented_steady 0, Schedule.documented_steady 0,
        Schedule.documented_steady 0, Schedule.documented_steady 1000,
        Schedule.documented_steady 1000000000, nofun⟩)
  obtain ⟨first, hfirst, h₁⟩ := hserved [] ask [visit, again, quick, slow] rfl
  obtain ⟨second, hsecond, h₂⟩ := hserved [ask] visit [again, quick, slow] rfl
  obtain ⟨third, hthird, h₃⟩ := hserved [ask, visit] again [quick, slow] rfl
  obtain ⟨fourth, hfourth, h₄⟩ := hserved [ask, visit, again] quick [slow] rfl
  obtain ⟨fifth, hfifth, h₅⟩ := hserved [ask, visit, again, quick] slow [] rfl
  have hfits : Fits 1024 1024 text.toUTF8 := ⟨by decide, by decide⟩
  have hquick : ¬ Overdue ⟨1024, 1024, 1⟩ quick.schedule quick.request := by
    rintro ⟨other, _, _, hlate⟩
    exact (Schedule.documented_steady 1000).prompt 1 (parsing other)
      (by decide : 1000 < 1 * 1000000) hlate
  have hslow : Overdue ⟨1024, 1024, 1⟩ slow.schedule slow.request :=
    ⟨text, posts_posting text (.v4 3), hfits,
      Schedule.timeout_steady (by decide : 1 * 1000000 ≤ 1000000000) _⟩
  have hrun : (Script.parse {} text).toBool = true := by decide +kernel
  refine ⟨first, second, third, fourth, fifth, hfirst, h₁.preflight rfl, hsecond, ?_, hthird, ?_,
    hfourth, ?_, hfifth, (h₅.late (by decide) (by decide) hslow).status⟩
  · rw [h₂.allowed (by decide) (by decide) fun ⟨_, hposts, _⟩ => nomatch hposts.method]
    exact ((howed 1024 1024 visit.request (by decide)).elsewhere (by decide) (by decide)).status
  · obtain ⟨_, hbrings⟩ := h₃.refused (by decide) (by decide)
    exact hbrings.status
  · rw [h₄.allowed (by decide) (by decide) hquick]
    cases hd : Script.parse {} text with
    | ok d =>
      exact ((howed 1024 1024 quick.request (by decide)).accepted text d (posts_posting text (.v4 2))
        hfits hd).status
    | error e => simp [hd, Except.toBool] at hrun

/-- Where there is no time at all for parsing, the answer to a script does not tell what it is. -/
theorem not_serve_within_window :
    let size := longScript.toUTF8.size
    let r := posting longScript (.v4 1)
    (Schedule.steady Schedule.millisecond).Documented ∧
      ∃ response, (run ⟨⟨size, size, 0⟩, ⟨1, 60000, []⟩⟩ [(0, r)]).1[0]? = some response ∧
        ¬ Owed size size r response := by
  have h (text : String) : ¬ Owed text.toUTF8.size text.toUTF8.size (posting text (.v4 1))
      (sent (posting text (.v4 1)) (answer ⟨text.toUTF8.size, text.toUTF8.size, 0⟩
        (.steady Schedule.millisecond) (posting text (.v4 1)))) := by
    have hposts := posts_posting text (.v4 1)
    exact not_owed_late hposts (fits_self _)
      (brings_late (overdue_of_zero rfl hposts (fits_self _))).status
  refine ⟨Schedule.documented_steady _, _, serve_getElem? _ [] [] _, ?_⟩
  rw [handle_of_ne (by nofun)]
  exact h longScript

end Service

end FuncScript
