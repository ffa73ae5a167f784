import FuncScript.Proofs.Outcome

namespace FuncScript

variable {log : FailureLog} {offset m : Nat} {e x : Expectation} {notes : List Note}

def notedAt (m : Nat) (notes : List Note) : List Expectation :=
  (notes.filter (·.1 = m)).map Prod.snd

theorem mem_notedAt : x ∈ notedAt m notes ↔ (m, x) ∈ notes := by
  simp [notedAt]

theorem notedAt_append (m : Nat) (notes more : List Note) :
    notedAt m (notes ++ more) = notedAt m notes ++ notedAt m more := by
  rw [notedAt, List.filter_append, List.map_append]
  rfl

theorem notedAt_eq_nil (h : ∀ n ∈ notes, n.1 < m) : notedAt m notes = [] := by
  rw [notedAt, List.map_eq_nil_iff, List.filter_eq_nil_iff]
  intro n hn
  have hlt := h n hn
  simp only [decide_eq_true_eq]
  omega

namespace FailureLog

structure Remains (log : FailureLog) (notes : List Note) : Prop where
  reporting : log.reporting = true
  furthest : ∀ n ∈ notes, n.1 ≤ log.furthest
  expected : log.expected = notedAt log.furthest notes
  reached : notes ≠ [] → ∃ n ∈ notes, n.1 = log.furthest
  fresh : notes = [] → log.furthest = 0

theorem Remains.mem_expected (h : log.Remains notes) :
    x ∈ log.expected ↔ (log.furthest, x) ∈ notes := by
  rw [h.expected, mem_notedAt]

theorem expected_force (h : log.Remains notes) (offset : Nat) (e : Expectation) :
    (log.force offset e).expected =
      notedAt (log.force offset e).furthest (notes ++ [(offset, e)]) := by
  rw [notedAt_append, furthest_force, force]
  -- the new note lies before the others, beyond them, or among those that are furthest on
  split
  · next hlt =>
    have hone : notedAt log.furthest [(offset, e)] = [] := notedAt_eq_nil (by simpa using hlt)
    rw [Nat.max_eq_left (Nat.le_of_lt hlt), hone, List.append_nil, h.expected]
  split
  · next hlt =>
    have hnone : notedAt offset notes = [] :=
      notedAt_eq_nil fun n hn => Nat.lt_of_le_of_lt (h.furthest n hn) hlt
    rw [Nat.max_eq_right (Nat.le_of_lt hlt), hnone]
    simp [notedAt]
  · obtain rfl : offset = log.furthest := by omega
    simp [h.expected, notedAt]

theorem Remains.record (h : log.Remains notes) (offset : Nat) (e : Expectation) :
    (log.record offset e).Remains (notes ++ [(offset, e)]) := by
  have hlog : log.record offset e = log.force offset e := if_pos h.reporting
  have hfurthest := furthest_force log offset e
  rw [hlog]
  constructor
  case reporting => exact (force_reporting log offset e).trans h.reporting
  case furthest =>
    intro n hn
    rw [hfurthest]
    rcases List.mem_append.mp hn with hn | hn
    · exact Nat.le_trans (h.furthest n hn) (Nat.le_max_left _ _)
    · obtain rfl := List.mem_singleton.mp hn
      exact Nat.le_max_right _ _
  case expected => exact expected_force h offset e
  case reached =>
    intro _
    rw [hfurthest]
    by_cases hlt : offset < log.furthest
    · have hne : notes ≠ [] := by
        intro hnil
        rw [h.fresh hnil] at hlt
        exact Nat.not_lt_zero offset hlt
      obtain ⟨n, hn, heq⟩ := h.reached hne
      exact ⟨n, List.mem_append_left _ hn, by rw [heq, Nat.max_eq_left (Nat.le_of_lt hlt)]⟩
    · refine ⟨(offset, e), by simp, ?_⟩
      rw [Nat.max_eq_right (Nat.not_lt.mp hlt)]
  case fresh => simp

theorem remains_noteAll (notes : List Note) : (noteAll {} notes).Remains notes := by
  have h : ∀ (more seen : List Note) (log : FailureLog), log.Remains seen →
      (log.noteAll more).Remains (seen ++ more) := by
    intro more
    induction more with
    | nil => simp
    | cons n more ih =>
      intro seen log hl
      have hr := ih _ _ (hl.record n.1 n.2)
      rw [List.append_assoc] at hr
      exact hr
  have hempty : Remains {} [] := ⟨rfl, nofun, rfl, fun hne => absurd rfl hne, fun _ => rfl⟩
  simpa using h notes [] {} hempty

theorem mem_expected_force (hx : x ∈ (log.force offset e).expected) :
    x ∈ log.expected ∧ (log.force offset e).furthest = log.furthest ∨
      x = e ∧ (log.force offset e).furthest = offset := by
  rw [furthest_force]
  unfold force at hx
  split at hx
  · exact .inl ⟨hx, Nat.max_eq_left (by omega)⟩
  split at hx
  · exact .inr ⟨List.mem_singleton.mp hx, Nat.max_eq_right (by omega)⟩
  · rcases List.mem_append.mp hx with hx | hx
    · exact .inl ⟨hx, by omega⟩
    · exact .inr ⟨List.mem_singleton.mp hx, by omega⟩

end FailureLog

end FuncScript
