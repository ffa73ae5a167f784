import Mathlib.Data.List.MinMax
import Mathlib.Order.Nat
import FuncScript.Proofs.Notes

/-!
Any steps on a log leave in it the failures furthest on, of those that count: all that is forced,
and what is recorded while reporting is on.
-/

namespace FuncScript.FailureLog

inductive Step where
  | record (offset : Nat) (e : Expectation)
  | force (offset : Nat) (e : Expectation)
  | suppress
  | restore (previous : Bool)

def next (log : FailureLog) : Step → FailureLog
  | .record offset e => log.record offset e
  | .force offset e => log.force offset e
  | .suppress => log.suppress.2
  | .restore previous => log.restore previous

def after (log : FailureLog) (steps : List Step) : FailureLog := steps.foldl next log

namespace Step

def reports (reporting : Bool) : Step → Bool
  | .record _ _ => reporting
  | .force _ _ => reporting
  | .suppress => false
  | .restore previous => previous

def counted (reporting : Bool) : Step → List Note
  | .record offset e => if reporting then [(offset, e)] else []
  | .force offset e => [(offset, e)]
  | .suppress => []
  | .restore _ => []

end Step

def effective : Bool → List Step → List Note
  | _, [] => []
  | reporting, step :: rest =>
    step.counted reporting ++ effective (step.reports reporting) rest

/-- Every `suppress` is followed by the `restore` that takes back what it gave, and nothing else but
records stands between. -/
inductive Balanced : Bool → List Step → Prop
  | nil (reporting : Bool) : Balanced reporting []
  | record {reporting : Bool} {rest : List Step} (offset : Nat) (e : Expectation)
      (h : Balanced reporting rest) : Balanced reporting (.record offset e :: rest)
  | quietly {reporting : Bool} {inner rest : List Step} (hinner : Balanced false inner)
      (h : Balanced reporting rest) :
      Balanced reporting (.suppress :: (inner ++ .restore reporting :: rest))

variable {log : FailureLog} {notes : List Note} {steps inner : List Step} {on : Bool}

theorem after_append (log : FailureLog) (steps more : List Step) :
    log.after (steps ++ more) = (log.after steps).after more :=
  List.foldl_append

theorem reporting_next (log : FailureLog) (step : Step) :
    (log.next step).reporting = step.reports log.reporting := by
  cases step with
  | record offset e => exact record_reporting log offset e
  | force offset e => exact force_reporting log offset e
  | suppress => rfl
  | restore previous => rfl

/-- A log that holds what others note while reporting is on, however its own switch stands. -/
def Holds (log : FailureLog) (notes : List Note) : Prop :=
  { log with reporting := true } = noteAll {} notes

theorem force_on (log : FailureLog) (offset : Nat) (e : Expectation) :
    { log.force offset e with reporting := true } =
      { log with reporting := true }.record offset e := by
  simp only [record, if_true, force]
  split
  · rfl
  · split <;> rfl

theorem Holds.force (h : log.Holds notes) (offset : Nat) (e : Expectation) :
    (log.force offset e).Holds (notes ++ [(offset, e)]) := by
  have hon := force_on log offset e
  rw [Holds, hon, h, noteAll_append]
  rfl

theorem Holds.next (h : log.Holds notes) (step : Step) :
    (log.next step).Holds (notes ++ step.counted log.reporting) := by
  cases step with
  | record offset e =>
    by_cases hr : log.reporting = true
    · simp only [FailureLog.next, FailureLog.record, Step.counted, hr, if_true]
      exact h.force offset e
    · simpa only [FailureLog.next, FailureLog.record, Step.counted, hr, if_false,
        List.append_nil, Bool.false_eq_true] using h
  | force offset e => exact h.force offset e
  | suppress => exact (List.append_nil notes).symm ▸ h
  | restore previous => exact (List.append_nil notes).symm ▸ h

theorem Holds.after (h : log.Holds notes) (steps : List Step) :
    (log.after steps).Holds (notes ++ effective log.reporting steps) := by
  induction steps generalizing log notes with
  | nil => exact (List.append_nil notes).symm ▸ h
  | cons step rest ih =>
    have hrest := ih (h.next step)
    rw [reporting_next, List.append_assoc] at hrest
    exact hrest

theorem Remains.furthest_eq (h : log.Remains notes) :
    log.furthest = (notes.map Prod.fst).foldr max 0 := by
  apply Nat.le_antisymm
  · by_cases hnil : notes = []
    · rw [h.fresh hnil]
      exact Nat.zero_le _
    · obtain ⟨n, hn, heq⟩ := h.reached hnil
      rw [← heq]
      exact List.le_max_of_le (List.mem_map_of_mem hn) (Nat.le_refl _)
  · apply List.max_le_of_forall_le
    intro k hk
    obtain ⟨n, hn, rfl⟩ := List.mem_map.mp hk
    exact h.furthest n hn

theorem Balanced.after (h : Balanced on steps) (hlog : log.reporting = on) :
    (log.after steps).reporting = on ∧ (on = false → log.after steps = log) := by
  induction h generalizing log with
  | nil on => exact ⟨hlog, fun _ => rfl⟩
  | @record on rest offset e _ ih =>
    obtain ⟨hreporting, hquiet⟩ := ih ((record_reporting log offset e).trans hlog)
    refine ⟨hreporting, fun hon => (hquiet hon).trans ?_⟩
    exact if_neg (by rw [hlog, hon]; exact Bool.false_ne_true)
  | @quietly on inner rest _ _ ihinner ih =>
    have hinner : log.suppress.2.after inner = log.suppress.2 := (ihinner rfl).2 rfl
    have hback : log.after (.suppress :: (inner ++ .restore on :: rest)) = log.after rest := by
      have hrun : log.after (.suppress :: (inner ++ .restore on :: rest)) =
          ((log.suppress.2.after inner).restore on).after rest :=
        after_append log.suppress.2 inner (.restore on :: rest)
      rw [hrun, hinner, ← hlog]
      rfl
    rw [hback]
    exact ih hlog

theorem after_quietly (log : FailureLog) (h : Balanced false inner) :
    log.after (.suppress :: (inner ++ [.restore log.suppress.1])) = log := by
  have hrun : log.after (.suppress :: (inner ++ [.restore log.suppress.1])) =
      (log.suppress.2.after inner).restore log.reporting :=
    after_append log.suppress.2 inner [.restore log.suppress.1]
  rw [hrun, (h.after rfl).2 rfl]
  rfl

theorem deepest_failures (steps : List Step) :
    (after {} steps).furthest = ((effective true steps).map Prod.fst).foldr max 0 ∧
      (after {} steps).expected =
        notedAt (((effective true steps).map Prod.fst).foldr max 0) (effective true steps) ∧
      ∀ (log : FailureLog) (inner : List Step), Balanced false inner →
        log.after (.suppress :: (inner ++ [.restore log.suppress.1])) = log := by
  have hfresh : Holds {} [] := rfl
  have hholds : (after {} steps).Holds (effective true steps) := hfresh.after steps
  have hfurthest := congrArg FailureLog.furthest hholds
  have hexpected := congrArg FailureLog.expected hholds
  have hremains := remains_noteAll (effective true steps)
  rw [hremains.furthest_eq] at hfurthest
  rw [hremains.expected, hremains.furthest_eq] at hexpected
  exact ⟨hfurthest, hexpected, fun log inner hinner => after_quietly log hinner⟩

theorem deepest_failures_nested :
    (after {} [.record 2 .anyChar, .suppress, .record 9 .anyChar, .force 5 .endOfInput,
        .restore true, .record 5 .anyChar, .record 3 .endOfInput]).furthest = 5 ∧
      (after {} [.record 2 .anyChar, .suppress, .record 9 .anyChar, .force 5 .endOfInput,
        .restore true, .record 5 .anyChar, .record 3 .endOfInput]).expected =
          [.endOfInput, .anyChar] ∧
      after { furthest := 1, expected := [.anyChar], reporting := false }
        [.suppress, .record 9 .endOfInput, .suppress, .record 8 .anyChar, .restore false,
          .restore false] = { furthest := 1, expected := [.anyChar], reporting := false } := by
  obtain ⟨hfurthest, hexpected, hquietly⟩ := deepest_failures
    [.record 2 .anyChar, .suppress, .record 9 .anyChar, .force 5 .endOfInput, .restore true,
      .record 5 .anyChar, .record 3 .endOfInput]
  refine ⟨hfurthest, hexpected, ?_⟩
  apply hquietly _ [.record 9 .endOfInput, .suppress, .record 8 .anyChar, .restore false]
  exact .record 9 .endOfInput (.quietly (.record 8 .anyChar (.nil false)) (.nil false))

end FuncScript.FailureLog
