import FuncScript.Service.Address

/-!
A limit on the requests of each address. An address has a window, which starts with its first
request and counts all of them, refused ones too; windows that have run out are forgotten at every
call. Times are nanoseconds on one clock, which need not run forward from call to call.
-/

namespace FuncScript

structure Window where
  count : Nat
  start : Nat
  deriving DecidableEq, Repr

inductive Verdict where
  | allowed
  | retryAfter (seconds : Nat)
  deriving DecidableEq, Repr

structure RateLimiter where
  maxRequests : Nat
  length : Nat
  table : List (Address × Window) := []
  deriving Repr

namespace RateLimiter

def second : Nat := 1000000000

/-- The window has not run out; before its start it has all its time left. -/
def isOpen (l : RateLimiter) (now : Nat) (w : Window) : Bool := decide (now - w.start < l.length)

def verdict (l : RateLimiter) (now : Nat) (w : Window) : Verdict :=
  if l.maxRequests < w.count then
    .retryAfter (max 1 ((l.length - (now - w.start)) / second))
  else .allowed

def check (l : RateLimiter) (address : Address) (now : Nat) : Verdict × RateLimiter :=
  let kept := l.table.filter fun e => l.isOpen now e.2
  let before := (kept.lookup address).getD ⟨0, now⟩
  let w : Window := { before with count := before.count + 1 }
  (l.verdict now w, { l with table := (address, w) :: kept.filter fun e => e.1 ≠ address })

end RateLimiter

end FuncScript
