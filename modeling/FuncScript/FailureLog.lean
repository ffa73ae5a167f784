import FuncScript.Expectation

/-!
What was expected at the furthest place where a match failed. A failure further on drops all
that was noted before it, one further back is not noted; while reporting is off nothing is.
-/

namespace FuncScript

structure FailureLog where
  furthest : Nat := 0
  expected : List Expectation := []
  reporting : Bool := true
  deriving DecidableEq, Repr

namespace FailureLog

def force (log : FailureLog) (offset : Nat) (e : Expectation) : FailureLog :=
  if offset < log.furthest then log
  else if log.furthest < offset then { log with furthest := offset, expected := [e] }
  else { log with expected := log.expected ++ [e] }

def record (log : FailureLog) (offset : Nat) (e : Expectation) : FailureLog :=
  if log.reporting then log.force offset e else log

/-- Turns reporting off and gives back how it stood, for `restore`. -/
def suppress (log : FailureLog) : Bool × FailureLog :=
  (log.reporting, { log with reporting := false })

def restore (log : FailureLog) (previous : Bool) : FailureLog :=
  { log with reporting := previous }

theorem force_reporting (log : FailureLog) (offset : Nat) (e : Expectation) :
    (log.force offset e).reporting = log.reporting := by
  unfold force
  split
  · rfl
  · split <;> rfl

theorem record_reporting (log : FailureLog) (offset : Nat) (e : Expectation) :
    (log.record offset e).reporting = log.reporting := by
  unfold record
  split
  · exact force_reporting log offset e
  · rfl

theorem furthest_force (log : FailureLog) (offset : Nat) (e : Expectation) :
    (log.force offset e).furthest = max log.furthest offset := by
  unfold force
  split
  · omega
  · split <;> simp only <;> omega

theorem furthest_le_record (log : FailureLog) (offset : Nat) (e : Expectation) :
    log.furthest ≤ (log.record offset e).furthest := by
  unfold record
  split
  · rw [furthest_force]
    omega
  · exact Nat.le_refl _

end FailureLog

end FuncScript
