import FuncScript.Rule.Terminal

/-!
What a rule does at a place, apart from the log: the result, where it stops, and the failed matches
that it notes on the way. No rule reads the log, so one outcome serves every log.
-/

namespace FuncScript

def Expectation.admits : Expectation → Char → Bool
  | .literal text, c => text.toList == [c]
  | .oneOf k, c => k.contains c
  | .anyChar, _ => true
  | .endOfInput, _ => false
  | .other _, _ => false

/-- A failed match: its offset, and what was expected there. -/
abbrev Note := Nat × Expectation

def FailureLog.noteAll (log : FailureLog) (notes : List Note) : FailureLog :=
  notes.foldl (fun log n => log.record n.1 n.2) log

@[simp] theorem FailureLog.noteAll_nil (log : FailureLog) : log.noteAll [] = log := rfl

theorem FailureLog.noteAll_append (log : FailureLog) (notes more : List Note) :
    log.noteAll (notes ++ more) = (log.noteAll notes).noteAll more := by
  simp [noteAll, List.foldl_append]

theorem FailureLog.noteAll_of_quiet {log : FailureLog} (h : log.reporting = false)
    (notes : List Note) : log.noteAll notes = log := by
  induction notes with
  | nil => rfl
  | cons n notes ih =>
    have hn : log.record n.1 n.2 = log := by simp [record, h]
    change (log.record n.1 n.2).noteAll notes = log
    rw [hn, ih]

structure Outcome (α : Type) where
  found : Option α
  stop : Nat
  notes : List Note

namespace State

def rest (s : State) : List Char := s.text.toList.drop s.cursor

def moved (s : State) (n : Nat) : State := { s with cursor := s.cursor + n }

def deeper (s : State) : State := { s with depth := s.depth + 1 }

variable {s : State}

theorem length_rest (s : State) : s.rest.length = s.left := by
  simp [rest, left]

theorem head?_rest (s : State) : s.rest.head? = s.peek := by
  simp [rest, peek]

theorem peek_of_rest {c : Char} {t : List Char} (h : s.rest = c :: t) : s.peek = some c := by
  rw [← head?_rest, h, List.head?_cons]

theorem peek_of_rest_nil (h : s.rest = []) : s.peek = none := by
  rw [← head?_rest, h, List.head?_nil]

theorem rest_moved (s : State) (n : Nat) : (s.moved n).rest = s.rest.drop n := by
  simp [rest, moved, List.drop_drop]

theorem rest_moved_of_append {w y : List Char} (h : s.rest = w ++ y) :
    (s.moved w.length).rest = y := by
  rw [rest_moved, h, List.drop_left]

theorem moved_moved (s : State) (m n : Nat) : (s.moved m).moved n = s.moved (m + n) := by
  simp [moved, Nat.add_assoc]

theorem left_moved (s : State) (n : Nat) : (s.moved n).left = s.left - n := by
  simp only [left, moved]
  omega

theorem cursor_add_le {w y : List Char} (h : s.rest = w ++ y) (hw : w ≠ []) :
    s.cursor + w.length ≤ s.text.size := by
  have hl := length_rest s
  have hp := List.length_pos_iff.mpr hw
  rw [h, List.length_append, left] at hl
  omega

end State

namespace Rule

variable {α β γ : Type} {s : State}

theorem andThen_succeed (r : Rule α) : andThen r succeed = r := by
  funext s
  unfold andThen
  rcases r s with ⟨_ | a, s'⟩ <;> rfl

theorem andThen_assoc (r : Rule α) (f : α → Rule β) (g : β → Rule γ) :
    andThen (andThen r f) g = andThen r fun a => andThen (f a) g := by
  funext s
  unfold andThen
  rcases r s with ⟨_ | a, s'⟩ <;> rfl

instance : LawfulMonad Rule :=
  LawfulMonad.mk' Rule andThen_succeed (fun _ _ => rfl) andThen_assoc

section Run

variable {r r' : Rule α} {f : α → Rule β} {a : α} {acc : List α} {bound : Nat} {t : State}
  {accepts : Char → Bool} {e : Expectation}

theorem bind_of_none (h : r s = (none, t)) : (r >>= f) s = (none, t) := by
  change andThen r f s = _
  simp only [andThen, h]

theorem bind_of_some (h : r s = (some a, t)) : (r >>= f) s = f a t := by
  change andThen r f s = _
  simp only [andThen, h]

theorem attempt_of_none (h : r s = (none, t)) :
    attempt r s = (none, { t with cursor := s.cursor }) := by
  simp only [attempt, h]

theorem attempt_of_some (h : r s = (some a, t)) : attempt r s = (some a, t) := by
  simp only [attempt, h]

theorem orElse_of_none (h : r s = (none, t)) : orElse r r' s = r' t := by
  simp only [orElse, h]

theorem orElse_of_some (h : r s = (some a, t)) : orElse r r' s = (some a, t) := by
  simp only [orElse, h]

theorem nested_of_le (h : s.limit ≤ s.depth) :
    nested r s = (none, s.expecting (tooDeep s.limit)) := by
  rw [nested, if_pos h]
  rfl

theorem nested_of_lt (h : s.depth < s.limit) :
    nested r s = ((r s.deeper).1, { (r s.deeper).2 with depth := (r s.deeper).2.depth - 1 }) := by
  rw [nested, if_neg (Nat.not_le.mpr h)]
  rfl

theorem terminal_cases (accepts : Char → Bool) (e : Expectation) (s : State) :
    (∃ c, s.peek = some c ∧ accepts c = true ∧ terminal accepts e s = (some c, s.advance)) ∨
      (∀ c, s.peek = some c → accepts c = false) ∧ terminal accepts e s = (none, s.expecting e) := by
  unfold terminal
  cases s.peek with
  | none => exact .inr ⟨by simp, rfl⟩
  | some c =>
    by_cases hc : accepts c = true
    · exact .inl ⟨c, rfl, hc, if_pos hc⟩
    · refine .inr ⟨?_, if_neg hc⟩
      rintro _ ⟨⟩
      exact Bool.eq_false_iff.mpr hc

theorem repeatedly_of_none (h : r s = (none, t)) : repeatedly r bound acc s = (acc.reverse, t) := by
  unfold repeatedly
  simp only [h]

theorem repeatedly_zero_of_some (h : r s = (some a, t)) :
    repeatedly r 0 acc s = ((a :: acc).reverse, t) := by
  unfold repeatedly
  simp only [h]

theorem repeatedly_succ_of_some (h : r s = (some a, t)) :
    repeatedly r (bound + 1) acc s = repeatedly r bound (a :: acc) t := by
  conv => lhs; unfold repeatedly
  simp only [h]

theorem rel_repeatedly {I : State → Prop} {R : State → State → Prop}
    (htrans : ∀ s t u, R s t → R t u → R s u) (hnext : ∀ s t a, I s → r s = (some a, t) → I t)
    (hr : ∀ s, I s → R s (r s).2) : ∀ (bound : Nat) (acc : List α) (s : State), I s →
      R s (repeatedly r bound acc s).2 := by
  intro bound
  induction bound with
  | zero =>
    intro acc s hs
    have hstep := hr s hs
    rcases hrun : r s with ⟨_ | a, t⟩ <;> rw [hrun] at hstep
    · rwa [repeatedly_of_none hrun]
    · rwa [repeatedly_zero_of_some hrun]
  | succ bound ih =>
    intro acc s hs
    have hstep := hr s hs
    rcases hrun : r s with ⟨_ | a, t⟩ <;> rw [hrun] at hstep
    · rwa [repeatedly_of_none hrun]
    · rw [repeatedly_succ_of_some hrun]
      exact htrans s t _ hstep (ih (a :: acc) t (hnext s t a hs hrun))

end Run

def Gives (r : Rule α) (s : State) (o : Outcome α) : Prop :=
  ∀ log, r { s with failures := log } =
    (o.found, { s with cursor := o.stop, failures := log.noteAll o.notes })

theorem gives_pure (a : α) (s : State) : (pure a : Rule α).Gives s ⟨some a, s.cursor, []⟩ :=
  fun _ => rfl

theorem Gives.bind_none {r : Rule α} {f : α → Rule β} {j : Nat} {notes : List Note}
    (h : r.Gives s ⟨none, j, notes⟩) : (r >>= f).Gives s ⟨none, j, notes⟩ :=
  fun log => bind_of_none (h log)

theorem Gives.bind_some {r : Rule α} {f : α → Rule β} {a : α} {j : Nat} {notes : List Note}
    {o : Outcome β} (h : r.Gives s ⟨some a, j, notes⟩)
    (h' : (f a).Gives { s with cursor := j } o) :
    (r >>= f).Gives s ⟨o.found, o.stop, notes ++ o.notes⟩ := by
  intro log
  rw [bind_of_some (h log), FailureLog.noteAll_append]
  exact h' (log.noteAll notes)

theorem gives_fail (e : Expectation) (s : State) :
    (fail e : Rule α).Gives s ⟨none, s.cursor, [(s.cursor, e)]⟩ :=
  fun _ => rfl

theorem gives_never (s : State) : (never : Rule α).Gives s ⟨none, s.cursor, []⟩ :=
  fun _ => rfl

theorem gives_cursor (s : State) : cursor.Gives s ⟨some s.cursor, s.cursor, []⟩ :=
  fun _ => rfl

theorem Gives.attempt {r : Rule α} {o : Outcome α} (h : r.Gives s o) :
    (attempt r).Gives s { o with stop := if o.found.isSome then o.stop else s.cursor } := by
  intro log
  obtain ⟨_ | a, j, notes⟩ := o
  · exact attempt_of_none (h log)
  · exact attempt_of_some (h log)

theorem Gives.notAhead {r : Rule α} {o : Outcome α} (h : r.Gives s o) :
    (notAhead r).Gives s ⟨if o.found.isSome then none else some (), s.cursor, []⟩ := by
  intro log
  have hq := h { log with reporting := false }
  rw [FailureLog.noteAll_of_quiet rfl] at hq
  simp only [Rule.notAhead, FailureLog.suppress, hq]
  rfl

theorem gives_nested_of_le {r : Rule α} (h : s.limit ≤ s.depth) :
    (nested r).Gives s ⟨none, s.cursor, [(s.cursor, tooDeep s.limit)]⟩ :=
  fun log => nested_of_le (s := { s with failures := log }) h

theorem Gives.nested {r : Rule α} {o : Outcome α} (hd : s.depth < s.limit)
    (h : r.Gives { s with depth := s.depth + 1 } o) : (nested r).Gives s o := by
  intro log
  rw [nested_of_lt (s := { s with failures := log }) hd, State.deeper, h log]
  rfl

theorem Gives.orElse_some {r r' : Rule α} {a : α} {j : Nat} {notes : List Note}
    (h : r.Gives s ⟨some a, j, notes⟩) : (orElse r r').Gives s ⟨some a, j, notes⟩ :=
  fun log => orElse_of_some (h log)

theorem Gives.orElse_none {r r' : Rule α} {notes : List Note} {o : Outcome α}
    (h : r.Gives s ⟨none, s.cursor, notes⟩) (h' : r'.Gives s o) :
    (orElse r r').Gives s ⟨o.found, o.stop, notes ++ o.notes⟩ := by
  intro log
  rw [orElse_of_none (h log), FailureLog.noteAll_append]
  exact h' (log.noteAll notes)

theorem Gives.optional {r : Rule α} {o : Outcome α} (h : r.Gives s o) :
    (optional r).Gives s ⟨some o.found, o.stop, o.notes⟩ := by
  intro log
  simp only [Rule.optional, h log]

/-- A rule run until it fails: what it finds, where the last run stops, and all that is noted. -/
inductive Loop (r : Rule α) : State → List α → Nat → List Note → Prop
  | stop {s : State} {j : Nat} {notes : List Note} (h : r.Gives s ⟨none, j, notes⟩) :
      Loop r s [] j notes
  | step {s : State} {a : α} {j k : Nat} {as : List α} {notes more : List Note}
      (h : r.Gives s ⟨some a, j, notes⟩) (hlt : s.cursor < j) (hle : j ≤ s.text.size)
      (hl : Loop r { s with cursor := j } as k more) : Loop r s (a :: as) k (notes ++ more)

theorem Loop.step_word {r : Rule α} {a : α} {w y : List Char} {k : Nat} {as : List α}
    {notes more : List Note} (h : r.Gives s ⟨some a, s.cursor + w.length, notes⟩)
    (he : s.rest = w ++ y) (hw : w ≠ []) (hl : Loop r (s.moved w.length) as k more) :
    Loop r s (a :: as) k (notes ++ more) := by
  have hp := List.length_pos_iff.mpr hw
  exact .step h (by omega) (State.cursor_add_le he hw) hl

theorem Loop.repeatedly_eq {r : Rule α} {as : List α} {k : Nat} {notes : List Note}
    (h : Loop r s as k notes) : ∀ (bound : Nat) (acc : List α) (log : FailureLog), s.left ≤ bound →
      repeatedly r bound acc { s with failures := log } =
        (acc.reverse ++ as, { s with cursor := k, failures := log.noteAll notes }) := by
  induction h with
  | stop h =>
    intro bound acc log _
    rw [repeatedly_of_none (h log), List.append_nil]
  | @step s a j k as notes more h hlt hle _ ih =>
    intro bound acc log hb
    obtain ⟨b, rfl⟩ : ∃ b, bound = b + 1 := ⟨bound - 1, by simp only [State.left] at hb; omega⟩
    have hleft : State.left { s with cursor := j } ≤ b := by
      simp only [State.left] at hb ⊢
      omega
    have hi := ih b (a :: acc) (log.noteAll notes) hleft
    simp only [List.reverse_cons, List.append_assoc, List.singleton_append] at hi
    rw [repeatedly_succ_of_some (h log), hi, FailureLog.noteAll_append]

theorem Loop.gives {r : Rule α} {as : List α} {k : Nat} {notes : List Note}
    (h : Loop r s as k notes) : (many r).Gives s ⟨some as, k, notes⟩ := by
  intro log
  have hr := h.repeatedly_eq s.left [] log (Nat.le_refl _)
  have hl : State.left { s with failures := log } = s.left := rfl
  unfold many
  rw [hl, hr]
  rfl

theorem gives_terminal_some {accepts : Char → Bool} {e : Expectation} {c : Char} {t : List Char}
    (h : s.rest = c :: t) (hc : accepts c = true) :
    (terminal accepts e).Gives s ⟨some c, s.cursor + 1, []⟩ := by
  intro log
  have hp : State.peek { s with failures := log } = some c := State.peek_of_rest (s := s) h
  rcases terminal_cases accepts e { s with failures := log } with ⟨d, hd, -, hrun⟩ | ⟨hno, -⟩
  · obtain rfl : c = d := by simpa [hp] using hd
    exact hrun
  · simp [hno c hp] at hc

theorem gives_terminal_none {accepts : Char → Bool} {e : Expectation}
    (h : ∀ c t, s.rest = c :: t → accepts c = false) :
    (terminal accepts e).Gives s ⟨none, s.cursor, [(s.cursor, e)]⟩ := by
  intro log
  rcases terminal_cases accepts e { s with failures := log } with ⟨c, hp, hc, -⟩ | ⟨-, hrun⟩
  · obtain ⟨t, ht⟩ : ∃ t, s.rest = c :: t := by
      rw [← List.head?_eq_some_iff, State.head?_rest]
      exact hp
    simp [h c t ht] at hc
  · exact hrun

theorem skipBlanks_eq : ∀ (bound : Nat) (s : State), s.left ≤ bound →
    skipBlanks bound s = s.moved (s.rest.takeWhile CharClass.whitespace.contains).length
  | 0, s, h => by
    have hr : s.rest = [] := by
      apply List.eq_nil_of_length_eq_zero
      rw [State.length_rest]
      omega
    simp [skipBlanks, hr, State.moved]
  | bound + 1, s, h => by
    unfold skipBlanks
    cases hr : s.rest with
    | nil => simp [State.peek_of_rest_nil hr, State.moved]
    | cons c t =>
      rw [State.peek_of_rest hr]
      by_cases hc : CharClass.whitespace.contains c = true
      · have ht : s.advance.rest = t := State.rest_moved_of_append (w := [c]) hr
        have hl : s.advance.left ≤ bound := by
          have := State.left_moved s 1
          change (s.moved 1).left ≤ bound
          omega
        simp only [hc, if_true, skipBlanks_eq bound s.advance hl, ht, List.takeWhile_cons]
        simp only [State.moved, State.advance, List.length_cons]
        congr 1
        omega
      · simp [hc, State.moved]

theorem gives_blanks (s : State) : blanks.Gives s
    ⟨some (), s.cursor + (s.rest.takeWhile CharClass.whitespace.contains).length, []⟩ := by
  intro log
  have h := skipBlanks_eq s.left { s with failures := log } (Nat.le_refl _)
  change (some (), skipBlanks s.left { s with failures := log }) = _
  rw [h]
  rfl

end Rule

end FuncScript
