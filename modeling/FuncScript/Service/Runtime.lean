import FuncScript.Service.RateLimiter

/-!
The system that the service runs on. It has the clock, keeps the limiter for one request at a time and
sees to tasks for which there is only so much time.
-/

namespace FuncScript

/-- What a task returns, or the message with which it breaks down. -/
abbrev Job (α : Type) := Unit → Except String α

inductive Awaited (α : Type) where
  | finished (result : α)
  | failed (cause : String)
  | elapsed

def Awaited.ofResult {α : Type} : Except String α → Awaited α
  | .ok result => .finished result
  | .error cause => .failed cause

structure Runtime (m : Type → Type) where
  /-- The time, in nanoseconds. -/
  now : m Nat
  locked {α : Type} (access : RateLimiter → α × RateLimiter) : m α
  /-- A limit is in milliseconds. -/
  timeout {α : Type} (limit : Nat) (job : Job α) : m (Awaited α)

structure Schedule where
  duration {α : Type} (job : Job α) : Nat
  timeout {α : Type} (limit : Nat) (job : Job α) : Awaited α

namespace Schedule

def millisecond : Nat := 1000000

/-- Every task takes the same time, and is given up as soon as there is none left. -/
def steady (nanoseconds : Nat) : Schedule where
  duration _ := nanoseconds
  timeout limit job :=
    if limit * millisecond ≤ nanoseconds then .elapsed else .ofResult (job ())

end Schedule

end FuncScript
