import FuncScript.Proofs.Acceptance
import FuncScript.Service.Router

/-!
What the service sends for a request that the limiter lets through. It follows from the request and
the size limits, unless the time for a script is up before the script is read.
-/

namespace FuncScript

namespace Utf8

theorem fromUTF8?_toUTF8 (text : String) : String.fromUTF8? text.toUTF8 = some text := by
  unfold String.fromUTF8?
  exact dif_pos text.isValidUTF8

theorem decode_toUTF8 (text : String) : decode text.toUTF8 = .ok text := by
  rw [decode, fromUTF8?_toUTF8]

theorem exists_fault {bytes : ByteArray} (h : ∀ text : String, text.toUTF8 ≠ bytes) :
    ∃ fault, decode bytes = .error fault := by
  have hnone : String.fromUTF8? bytes = none := by
    unfold String.fromUTF8?
    exact dif_neg fun hv => h (String.fromUTF8 bytes hv) rfl
  rw [decode, hnone]
  exact ⟨_, rfl⟩

end Utf8

namespace Script

variable {text : String}

theorem parse_default (text : String) :
    (∃ d, parse {} text = .ok d) ∨ ∃ e, parse {} text = .error (.malformed e) := by
  by_cases h : ∃ d, parse {} text = .ok d
  · exact .inl h
  · exact .inr (exists_malformed (.inl rfl) fun d hd => h ⟨d, hd⟩)

end Script

namespace Service

variable {settings : Settings} {schedule : Schedule} {r : Request} {bytes : ByteArray} {text : String}
  {d : Definition} {e : SyntaxError}

/-- The response has an envelope for its body, which is left out for HEAD. -/
structure Brings (r : Request) (status : Nat) (e : Envelope) (response : Response) : Prop where
  status : response.status = status
  body : response.body = if r.method = .head then "" else e.toJson.compact
  contentType : response.contentType = some "application/json"
  allowOrigin : response.allowOrigin = some "*"

structure Posts (r : Request) (bytes : ByteArray) : Prop where
  method : r.method = .post
  path : r.path = "/"
  body : r.body = .complete bytes

def posting (text : String) (address : Address) : Request :=
  ⟨.post, "/", .complete text.toUTF8, address⟩

theorem posts_posting (text : String) (address : Address) :
    Posts (posting text address) text.toUTF8 :=
  ⟨rfl, by simp [posting, Request.path, afterHost], rfl⟩

def Fits (maxSourceSize bodyLimit : Nat) (bytes : ByteArray) : Prop :=
  bytes.size ≤ bodyLimit ∧ bytes.size ≤ maxSourceSize

structure Owed (maxSourceSize bodyLimit : Nat) (r : Request) (response : Response) : Prop where
  elsewhere : r.path ≠ "/" → r.path ≠ "/health" →
    Brings r 404 { code := .notFound, message := "not found" } response
  otherMethod :
    r.path = "/" ∧ r.method ≠ .post ∨ r.path = "/health" ∧ r.method ≠ .get ∧ r.method ≠ .head →
      Brings r 405 { code := .methodNotAllowed, message := "method not allowed" } response
  health : r.path = "/health" → r.method = .get ∨ r.method = .head →
    response.status = 200 ∧ response.body = if r.method = .head then "" else
      (Json.object [("status", .string "ok"), ("version", .string version)]).compact
  broken : ∀ cause, r.method = .post → r.path = "/" → r.body = .broken cause →
    ∃ message, Brings r 400 { code := .invalidPayload, message } response
  tooLarge : ∀ bytes, Posts r bytes → ¬ Fits maxSourceSize bodyLimit bytes →
    ∃ message, Brings r 413 { code := .payloadTooLarge, message } response
  notUtf8 : ∀ bytes, Posts r bytes → Fits maxSourceSize bodyLimit bytes →
    (∀ text : String, text.toUTF8 ≠ bytes) →
      ∃ message, Brings r 400 { code := .invalidPayload, message } response
  accepted : ∀ (text : String) d, Posts r text.toUTF8 →
    Fits maxSourceSize bodyLimit text.toUTF8 → Script.parse {} text = .ok d →
      Brings r 200 { code := .ok, data := some d } response
  refused : ∀ text : String, Posts r text.toUTF8 → Fits maxSourceSize bodyLimit text.toUTF8 →
    (∀ d, Script.parse {} text ≠ .ok d) → ∃ e, Script.parse {} text = .error (.malformed e) ∧
      Brings r 400 { code := .syntaxError, message := e.message, error := some e } response
  notInternal : response.status ≠ 500

theorem fits_self (bytes : ByteArray) : Fits bytes.size bytes.size bytes :=
  ⟨Nat.le_refl _, Nat.le_refl _⟩

def sent (r : Request) (response : Response) : Response :=
  let response := { response with allowOrigin := some "*" }
  if r.method = .head then response.withoutBody else response

def posted (settings : Settings) (schedule : Schedule) (r : Request) : Envelope :=
  match source settings (Incoming.mk r settings.bodyLimit).bytes with
  | .error refusal => refusal
  | .ok text => parsed settings (schedule.timeout settings.timeLimit (parsing text))

def answer (settings : Settings) (schedule : Schedule) (r : Request) : Response :=
  if r.path = "/" then
    .ofEnvelope (if r.method = .post then posted settings schedule r
      else { code := .methodNotAllowed, message := "method not allowed" })
  else if r.path = "/health" then
    if r.method = .get ∨ r.method = .head then
      .ofJson 200 (.object [("status", .string "ok"), ("version", .string version)])
    else .ofEnvelope { code := .methodNotAllowed, message := "method not allowed" }
  else .ofEnvelope { code := .notFound, message := "not found" }

theorem status_sent (r : Request) (response : Response) :
    (sent r response).status = response.status := by
  unfold sent
  dsimp only
  split <;> rfl

theorem brings_sent {status : Nat} {e : Envelope} (hstatus : e.code.status = status) :
    Brings r status e (sent r (.ofEnvelope e)) := by
  unfold sent
  by_cases h : r.method = .head
  · simp only [h, if_true]
    exact ⟨hstatus, (if_pos h).symm, rfl, rfl⟩
  · simp only [h, if_false]
    exact ⟨hstatus, (if_neg h).symm, rfl, rfl⟩

theorem answer_elsewhere (hroot : r.path ≠ "/") (hhealth : r.path ≠ "/health") :
    answer settings schedule r = .ofEnvelope { code := .notFound, message := "not found" } := by
  rw [answer, if_neg hroot, if_neg hhealth]

theorem answer_otherMethod
    (h : r.path = "/" ∧ r.method ≠ .post ∨
      r.path = "/health" ∧ r.method ≠ .get ∧ r.method ≠ .head) : answer settings schedule r =
        .ofEnvelope { code := .methodNotAllowed, message := "method not allowed" } := by
  rcases h with ⟨hpath, hm⟩ | ⟨hpath, hget, hhead⟩
  · rw [answer, if_pos hpath, if_neg hm]
  · have hroot : r.path ≠ "/" := by
      rw [hpath]
      decide
    rw [answer, if_neg hroot, if_pos hpath, if_neg (not_or.mpr ⟨hget, hhead⟩)]

theorem answer_health (hpath : r.path = "/health") (h : r.method = .get ∨ r.method = .head) :
    answer settings schedule r =
      .ofJson 200 (.object [("status", .string "ok"), ("version", .string version)]) := by
  have hroot : r.path ≠ "/" := by
    rw [hpath]
    decide
  rw [answer, if_neg hroot, if_pos hpath, if_pos h]

theorem answer_post (hpath : r.path = "/") (h : r.method = .post) :
    answer settings schedule r = .ofEnvelope (posted settings schedule r) := by
  rw [answer, if_pos hpath, if_pos h]

theorem not_fits_iff {maxSourceSize bodyLimit : Nat} : ¬ Fits maxSourceSize bodyLimit bytes ↔
    bodyLimit < bytes.size ∨ maxSourceSize < bytes.size := by
  rw [Fits]
  omega

theorem source_fits (hbody : r.body = .complete bytes)
    (h : Fits settings.maxSourceSize settings.bodyLimit bytes) :
    source settings (Incoming.mk r settings.bodyLimit).bytes =
      match Utf8.decode bytes with
      | .ok text => .ok text
      | .error fault =>
        .error (invalidPayload ("request body is not valid UTF-8: " ++ fault.message)) := by
  rw [Incoming.bytes, hbody]
  cases hdecode : Utf8.decode bytes <;>
    simp only [if_neg (Nat.not_lt.mpr h.1), source, if_neg (Nat.not_lt.mpr h.2), hdecode]

theorem source_large (hbody : r.body = .complete bytes)
    (h : ¬ Fits settings.maxSourceSize settings.bodyLimit bytes) :
    source settings (Incoming.mk r settings.bodyLimit).bytes = .error (tooLarge settings) := by
  rw [Incoming.bytes, hbody]
  by_cases hlimit : settings.bodyLimit < bytes.size
  · simp only [if_pos hlimit]
    rfl
  · simp only [if_neg hlimit, source, if_pos ((not_fits_iff.mp h).resolve_left hlimit)]

theorem source_text (hbody : r.body = .complete text.toUTF8)
    (h : Fits settings.maxSourceSize settings.bodyLimit text.toUTF8) :
    source settings (Incoming.mk r settings.bodyLimit).bytes = .ok text := by
  rw [source_fits hbody h, Utf8.decode_toUTF8]

theorem text_of_source (h : source settings (Incoming.mk r settings.bodyLimit).bytes = .ok text) :
    r.body = .complete text.toUTF8 ∧ Fits settings.maxSourceSize settings.bodyLimit text.toUTF8 := by
  cases hbody : r.body with
  | broken cause =>
    rw [Incoming.bytes, hbody] at h
    cases h
  | complete bytes =>
    by_cases hfits : Fits settings.maxSourceSize settings.bodyLimit bytes
    · by_cases htext : ∃ text : String, text.toUTF8 = bytes
      · obtain ⟨other, rfl⟩ := htext
        rw [source_text hbody hfits] at h
        cases h
        exact ⟨rfl, hfits⟩
      · obtain ⟨fault, hfault⟩ := Utf8.exists_fault fun text ht => htext ⟨text, ht⟩
        rw [source_fits hbody hfits, hfault] at h
        cases h
    · rw [source_large hbody hfits] at h
      cases h

end Service

namespace Schedule

/-- A task that is not given up comes to what it returns or breaks down with, and none is given up that
takes less than its time. -/
structure Documented (s : Schedule) : Prop where
  own : ∀ {α : Type} (limit : Nat) (job : Job α),
    s.timeout limit job = .elapsed ∨ s.timeout limit job = .ofResult (job ())
  prompt : ∀ {α : Type} (limit : Nat) (job : Job α),
    s.duration job < limit * millisecond → s.timeout limit job ≠ .elapsed

theorem timeout_steady {α : Type} {limit nanoseconds : Nat} (h : limit * millisecond ≤ nanoseconds)
    (job : Job α) : (steady nanoseconds).timeout limit job = .elapsed :=
  if_pos h

theorem documented_steady (nanoseconds : Nat) : (steady nanoseconds).Documented := by
  constructor
  case own =>
    intro α limit job
    simp only [steady]
    split
    · exact .inl rfl
    · exact .inr rfl
  case prompt =>
    intro α limit job hlt
    have hrun : (steady nanoseconds).timeout limit job = .ofResult (job ()) :=
      if_neg (Nat.not_le.mpr hlt)
    rw [hrun]
    cases job () <;> nofun

end Schedule

namespace Service

variable {settings : Settings} {schedule : Schedule} {r : Request} {bytes : ByteArray} {text : String}
  {d : Definition} {e : SyntaxError}

theorem parsed_timeout (hdoc : schedule.Documented)
    (h : schedule.timeout settings.timeLimit (parsing text) ≠ .elapsed) :
    schedule.timeout settings.timeLimit (parsing text) = .finished (Script.parse {} text) :=
  (hdoc.own settings.timeLimit (parsing text)).resolve_left h

def Overdue (settings : Settings) (schedule : Schedule) (r : Request) : Prop :=
  ∃ text : String, Posts r text.toUTF8 ∧
    Fits settings.maxSourceSize settings.bodyLimit text.toUTF8 ∧
      schedule.timeout settings.timeLimit (parsing text) = .elapsed

theorem overdue_iff (h : Posts r text.toUTF8)
    (hfits : Fits settings.maxSourceSize settings.bodyLimit text.toUTF8) :
    Overdue settings schedule r ↔
      schedule.timeout settings.timeLimit (parsing text) = .elapsed := by
  constructor
  · rintro ⟨other, hother, _, hlate⟩
    have hbytes := hother.body.symm.trans h.body
    rw [RequestBody.complete.injEq] at hbytes
    obtain rfl := String.toByteArray_inj.mp hbytes
    exact hlate
  · intro hlate
    exact ⟨text, h, hfits, hlate⟩

theorem posted_text (h : Posts r text.toUTF8)
    (hfits : Fits settings.maxSourceSize settings.bodyLimit text.toUTF8) :
    posted settings schedule r =
      parsed settings (schedule.timeout settings.timeLimit (parsing text)) := by
  rw [posted, source_text h.body hfits]

theorem posted_text_of_due (hdoc : schedule.Documented) (hdue : ¬ Overdue settings schedule r)
    (h : Posts r text.toUTF8)
    (hfits : Fits settings.maxSourceSize settings.bodyLimit text.toUTF8) :
    posted settings schedule r = parsed settings (.finished (Script.parse {} text)) := by
  rw [posted_text h hfits, parsed_timeout hdoc fun hlate => hdue ⟨text, h, hfits, hlate⟩]

theorem code_of_source {body : Except Rejection ByteArray} {refusal : Envelope}
    (h : source settings body = .error refusal) : refusal.code ≠ .internalError := by
  cases body with
  | error rejection =>
    rw [source] at h
    split at h <;> cases h <;> nofun
  | ok bytes =>
    rw [source] at h
    split at h
    · cases h
      nofun
    · cases hdecode : Utf8.decode bytes with
      | ok text => simp [hdecode] at h
      | error fault =>
        simp only [hdecode] at h
        cases h
        nofun

theorem code_posted (hdoc : schedule.Documented) :
    (posted settings schedule r).code ≠ .internalError := by
  rw [posted]
  cases hsource : source settings (Incoming.mk r settings.bodyLimit).bytes with
  | error refusal => exact code_of_source hsource
  | ok text =>
    change (parsed settings (schedule.timeout settings.timeLimit (parsing text))).code ≠ _
    rcases hdoc.own settings.timeLimit (parsing text) with h | h <;> rw [h]
    · nofun
    · change (parsed settings (.finished (Script.parse {} text))).code ≠ _
      rcases Script.parse_default text with ⟨d, hd⟩ | ⟨e, he⟩
      · rw [hd]
        nofun
      · rw [he]
        nofun

theorem status_ne (c : Code) (h : c ≠ .internalError) : c.status ≠ 500 := by
  cases c <;> simp_all [Code.status]

theorem status_answer (hdoc : schedule.Documented) : (answer settings schedule r).status ≠ 500 := by
  rw [answer]
  split
  · apply status_ne
    split
    · exact code_posted hdoc
    · nofun
  · split
    · split
      · exact (by decide : (200 : Nat) ≠ 500)
      · exact (by decide : (405 : Nat) ≠ 500)
    · exact (by decide : (404 : Nat) ≠ 500)

theorem owed_sent (hdoc : schedule.Documented) (hdue : ¬ Overdue settings schedule r) :
    Owed settings.maxSourceSize settings.bodyLimit r (sent r (answer settings schedule r)) := by
  have hpost {bytes : ByteArray} (h : Posts r bytes) : answer settings schedule r =
      .ofEnvelope (posted settings schedule r) := answer_post h.path h.method
  constructor
  case elsewhere =>
    intro hroot hhealth
    rw [answer_elsewhere hroot hhealth]
    exact brings_sent rfl
  case otherMethod =>
    intro h
    rw [answer_otherMethod h]
    exact brings_sent rfl
  case health =>
    intro hpath h
    rw [answer_health hpath h, status_sent, sent]
    refine ⟨rfl, ?_⟩
    split
    · rfl
    · rfl
  case broken =>
    intro cause hm hpath hbody
    rw [answer_post hpath hm, posted, Incoming.bytes, hbody]
    exact ⟨_, brings_sent rfl⟩
  case tooLarge =>
    intro bytes h hlarge
    rw [hpost h, posted, source_large h.body hlarge]
    exact ⟨_, brings_sent rfl⟩
  case notUtf8 =>
    intro bytes h hfits htext
    obtain ⟨fault, hfault⟩ := Utf8.exists_fault htext
    rw [hpost h, posted, source_fits h.body hfits, hfault]
    exact ⟨_, brings_sent rfl⟩
  case accepted =>
    intro text d h hfits hd
    rw [hpost h, posted_text_of_due hdoc hdue h hfits, hd]
    exact brings_sent rfl
  case refused =>
    intro text h hfits hnone
    obtain ⟨d, hd⟩ | ⟨e, he⟩ := Script.parse_default text
    · exact absurd hd (hnone d)
    · refine ⟨e, he, ?_⟩
      rw [hpost h, posted_text_of_due hdoc hdue h hfits, he]
      exact brings_sent rfl
  case notInternal =>
    rw [status_sent]
    exact status_answer hdoc

theorem brings_late (h : Overdue settings schedule r) :
    Brings r 503 (late settings) (sent r (answer settings schedule r)) := by
  obtain ⟨text, hposts, hfits, hlate⟩ := h
  rw [answer_post hposts.path hposts.method, posted_text hposts hfits, hlate]
  exact brings_sent rfl

theorem not_owed_late {maxSourceSize bodyLimit : Nat} {response : Response}
    (hposts : Posts r text.toUTF8) (hfits : Fits maxSourceSize bodyLimit text.toUTF8)
    (hlate : response.status = 503) : ¬ Owed maxSourceSize bodyLimit r response := by
  intro howed
  by_cases h : ∃ d, Script.parse {} text = .ok d
  · obtain ⟨d, hd⟩ := h
    have hstatus := (howed.accepted text d hposts hfits hd).status
    omega
  · obtain ⟨e, _, hbrings⟩ := howed.refused text hposts hfits fun d hd => h ⟨d, hd⟩
    have hstatus := hbrings.status
    omega

theorem source_congr {settings' : Settings}
    (h : settings'.maxSourceSize = settings.maxSourceSize) : source settings' = source settings := by
  funext body
  cases body with
  | error rejection => simp only [source, tooLarge, h]
  | ok bytes => simp only [source, tooLarge, h]

theorem parsed_finished (settings settings' : Settings) (result : Except ScriptError Definition) :
    parsed settings (.finished result) = parsed settings' (.finished result) := by
  rcases result with e | d
  · cases e <;> rfl
  · rfl

theorem answer_congr {settings' : Settings} {schedule' : Schedule}
    (hdoc : schedule.Documented) (hdoc' : schedule'.Documented)
    (hsize : settings'.maxSourceSize = settings.maxSourceSize)
    (hlimit : settings'.bodyLimit = settings.bodyLimit)
    (hdue : ¬ Overdue settings schedule r) (hdue' : ¬ Overdue settings' schedule' r) :
    answer settings schedule r = answer settings' schedule' r := by
  by_cases hpost : r.path = "/" ∧ r.method = .post
  · obtain ⟨hpath, hmethod⟩ := hpost
    rw [answer_post hpath hmethod, answer_post hpath hmethod]
    refine congrArg Response.ofEnvelope ?_
    cases hsource : source settings (Incoming.mk r settings.bodyLimit).bytes with
    | error refusal => rw [posted, posted, source_congr hsize, hlimit, hsource]
    | ok text =>
      obtain ⟨hbody, hfits⟩ := text_of_source hsource
      have hposts : Posts r text.toUTF8 := ⟨hmethod, hpath, hbody⟩
      have hfits' : Fits settings'.maxSourceSize settings'.bodyLimit text.toUTF8 := by
        rwa [hsize, hlimit]
      rw [posted_text_of_due hdoc hdue hposts hfits, posted_text_of_due hdoc' hdue' hposts hfits',
        parsed_finished]
  · rw [answer, answer]
    split
    · next hpath =>
      rw [if_neg fun h => hpost ⟨hpath, h⟩, if_neg fun h => hpost ⟨hpath, h⟩]
    · rfl

def longScript : String :=
  "FUNC Slow () BEGIN END " ++ String.join (List.replicate 100000 "@k=\"v\",") ++ "@k=\"v\";"

theorem overdue_of_zero (h : settings.timeLimit = 0) {nanoseconds : Nat}
    (hposts : Posts r text.toUTF8)
    (hfits : Fits settings.maxSourceSize settings.bodyLimit text.toUTF8) :
    Overdue settings (.steady nanoseconds) r := by
  refine ⟨text, hposts, hfits, Schedule.timeout_steady ?_ _⟩
  rw [h, Nat.zero_mul]
  exact Nat.zero_le nanoseconds

end Service

end FuncScript
