import FuncScript.Proofs.Discipline

/-!
Rules that come to the same: from every place both give the same result and stop at the same place.
What they note on the way may differ. Each way to put rules together keeps this.
-/

namespace FuncScript.Rule

variable {α β : Type} {s : State} {r r' : Rule α} {found : Option α} {j : Nat}

/-- What a rule gives at a place and where it stops, whatever is in the log. -/
def Ends (r : Rule α) (s : State) (found : Option α) (j : Nat) : Prop :=
  ∀ log, ∃ log', r { s with failures := log } = (found, { s with cursor := j, failures := log' })

def Agrees (r r' : Rule α) : Prop :=
  ∀ s, ∃ found j, r.Ends s found j ∧ r'.Ends s found j

def StandsFor (r r' : Rule α) : Prop :=
  ∀ s, ∃ found j, r.Ends s found j ∧ r'.Ends s found j ∧ (found = none → j = s.cursor)

theorem StandsFor.agrees (h : r.StandsFor r') : r.Agrees r' := by
  intro s
  obtain ⟨found, j, hr, hr', -⟩ := h s
  exact ⟨found, j, hr, hr'⟩

theorem Agrees.same (h : r.Agrees r') (s : State) :
    (r s).1 = (r' s).1 ∧ (r s).2.cursor = (r' s).2.cursor := by
  obtain ⟨found, j, hr, hr'⟩ := h s
  obtain ⟨new, hr⟩ := hr s.failures
  obtain ⟨new', hr'⟩ := hr' s.failures
  rw [show r s = _ from hr, show r' s = _ from hr']
  exact ⟨rfl, rfl⟩

theorem Ends.agrees (h : r.Ends s found j) (h' : r'.Ends s found j) :
    ∃ found j, r.Ends s found j ∧ r'.Ends s found j :=
  ⟨found, j, h, h'⟩

theorem Gives.ends {o : Outcome α} (h : r.Gives s o) : r.Ends s o.found o.stop :=
  fun log => ⟨log.noteAll o.notes, h log⟩

theorem Ends.bind_none {f : α → Rule β} (h : r.Ends s none j) : (r >>= f).Ends s none j := by
  intro log
  obtain ⟨new, hr⟩ := h log
  exact ⟨new, Rule.bind_of_none hr⟩

theorem Ends.bind_some {f : α → Rule β} {a : α} {found : Option β} {k : Nat}
    (h : r.Ends s (some a) j) (h' : (f a).Ends { s with cursor := j } found k) :
    (r >>= f).Ends s found k := by
  intro log
  obtain ⟨new, hr⟩ := h log
  obtain ⟨new', hf⟩ := h' new
  exact ⟨new', (Rule.bind_of_some hr).trans hf⟩

theorem Ends.attempt (h : r.Ends s found j) :
    (attempt r).Ends s found (if found.isSome then j else s.cursor) := by
  intro log
  obtain ⟨new, hr⟩ := h log
  cases found with
  | none => exact ⟨new, attempt_of_none hr⟩
  | some a => exact ⟨new, attempt_of_some hr⟩

theorem Ends.notAhead (h : r.Ends s found j) :
    (notAhead r).Ends s (if found.isSome then none else some ()) s.cursor := by
  intro log
  obtain ⟨new, hr⟩ := h { log with reporting := false }
  refine ⟨new.restore log.reporting, ?_⟩
  simp only [Rule.notAhead, FailureLog.suppress, hr]

theorem Ends.nested (hd : s.depth < s.limit) (h : r.Ends s.deeper found j) :
    (nested r).Ends s found j := by
  intro log
  obtain ⟨new, hr⟩ := h log
  refine ⟨new, ?_⟩
  rw [nested_of_lt (s := { s with failures := log }) hd,
    show r (State.deeper { s with failures := log }) = _ from hr]
  rfl

theorem Ends.orElse_some {a : α} (h : r.Ends s (some a) j) :
    (orElse r r').Ends s (some a) j := by
  intro log
  obtain ⟨new, hr⟩ := h log
  exact ⟨new, orElse_of_some hr⟩

theorem Ends.orElse_none {k : Nat} (h : r.Ends s none k)
    (h' : r'.Ends { s with cursor := k } found j) : (orElse r r').Ends s found j := by
  intro log
  obtain ⟨new, hr⟩ := h log
  obtain ⟨new', hr'⟩ := h' new
  exact ⟨new', (orElse_of_none hr).trans hr'⟩

theorem Ends.optional (h : r.Ends s found j) : (optional r).Ends s (some found) j := by
  intro log
  obtain ⟨new, hr⟩ := h log
  exact ⟨new, by simp only [Rule.optional, hr]⟩

theorem agrees_pure (a : α) : (pure a : Rule α).Agrees (pure a) :=
  fun s => (gives_pure a s).ends.agrees (gives_pure a s).ends

theorem agrees_terminal (accepts : Char → Bool) (e : Expectation) :
    (terminal accepts e).Agrees (terminal accepts e) := by
  intro s
  by_cases h : ∃ c t, s.rest = c :: t ∧ accepts c = true
  · obtain ⟨c, t, hr, hc⟩ := h
    have hg := gives_terminal_some (e := e) hr hc
    exact hg.ends.agrees hg.ends
  · have hg := gives_terminal_none (s := s) (e := e) fun c t hr => by
      simpa using fun hc => h ⟨c, t, hr, hc⟩
    exact hg.ends.agrees hg.ends

theorem Agrees.bind {f f' : α → Rule β} (h : r.Agrees r') (hf : ∀ a, (f a).Agrees (f' a)) :
    (r >>= f).Agrees (r' >>= f') := by
  intro s
  obtain ⟨_ | a, j, hr, hr'⟩ := h s
  · exact hr.bind_none.agrees hr'.bind_none
  · obtain ⟨found, k, hk, hk'⟩ := hf a { s with cursor := j }
    exact (hr.bind_some hk).agrees (hr'.bind_some hk')

theorem Agrees.map (h : r.Agrees r') (g : α → β) :
    (r >>= fun a => pure (g a)).Agrees (r' >>= fun a => pure (g a)) :=
  h.bind fun a => agrees_pure (g a)

theorem Agrees.attempt (h : r.Agrees r') : (attempt r).StandsFor (attempt r') := by
  intro s
  obtain ⟨found, j, hr, hr'⟩ := h s
  refine ⟨found, _, hr.attempt, hr'.attempt, ?_⟩
  rintro rfl
  rfl

theorem Agrees.notAhead (h : r.Agrees r') : (notAhead r).Agrees (notAhead r') := by
  intro s
  obtain ⟨found, j, hr, hr'⟩ := h s
  exact hr.notAhead.agrees hr'.notAhead

theorem Agrees.orElse {q q' : Rule α} (h : r.Agrees r') (h' : q.Agrees q') :
    (orElse r q).Agrees (orElse r' q') := by
  intro s
  obtain ⟨_ | a, j, hr, hr'⟩ := h s
  · obtain ⟨found, k, hq, hq'⟩ := h' { s with cursor := j }
    exact (hr.orElse_none hq).agrees (hr'.orElse_none hq')
  · exact hr.orElse_some.agrees hr'.orElse_some

theorem Agrees.optional (h : r.Agrees r') : (optional r).Agrees (optional r') := by
  intro s
  obtain ⟨found, j, hr, hr'⟩ := h s
  exact hr.optional.agrees hr'.optional

theorem StandsFor.nested (h : r.StandsFor r') : (nested r).StandsFor (nested r') := by
  intro s
  rcases Nat.lt_or_ge s.depth s.limit with hd | hd
  · obtain ⟨found, j, hr, hr', hback⟩ := h s.deeper
    exact ⟨found, j, hr.nested hd, hr'.nested hd, hback⟩
  · exact ⟨none, s.cursor, (gives_nested_of_le hd).ends, (gives_nested_of_le hd).ends, fun _ => rfl⟩

theorem Agrees.nested (h : r.Agrees r') : (nested r).Agrees (nested r') := by
  intro s
  rcases Nat.lt_or_ge s.depth s.limit with hd | hd
  · obtain ⟨found, j, hr, hr'⟩ := h s.deeper
    exact (hr.nested hd).agrees (hr'.nested hd)
  · exact (gives_nested_of_le hd).ends.agrees (gives_nested_of_le hd).ends

theorem StandsFor.map (h : r.StandsFor r') (g : α → β) :
    (r >>= fun a => pure (g a)).StandsFor (r' >>= fun a => pure (g a)) := by
  intro s
  obtain ⟨_ | a, j, hr, hr', hback⟩ := h s
  · exact ⟨none, j, hr.bind_none, hr'.bind_none, fun _ => hback rfl⟩
  · exact ⟨some (g a), j, hr.bind_some (gives_pure (g a) _).ends,
      hr'.bind_some (gives_pure (g a) _).ends, nofun⟩

theorem Agrees.by_place {f f' : Nat → Rule α} (h : ∀ n, (f n).Agrees (f' n)) (n : State → Nat)
    (hn : ∀ s log, n { s with failures := log } = n s) :
    Agrees (fun s => f (n s) s) (fun s => f' (n s) s) := by
  intro s
  obtain ⟨found, j, hf, hf'⟩ := h (n s) s
  have hplace (g : Nat → Rule α) (hg : (g (n s)).Ends s found j) :
      Ends (fun s => g (n s) s) s found j := by
    intro log
    change ∃ log', g (n { s with failures := log }) { s with failures := log } = _
    rw [hn s log]
    exact hg log
  exact (hplace f hf).agrees (hplace f' hf')

def upTo (r : Rule α) : Nat → List α → Rule (List α)
  | 0, acc => optional r >>= fun
    | none => pure acc.reverse
    | some a => pure (a :: acc).reverse
  | bound + 1, acc => optional r >>= fun
    | none => pure acc.reverse
    | some a => upTo r bound (a :: acc)

theorem upTo_eq (r : Rule α) : ∀ (bound : Nat) (acc : List α) (s : State),
    upTo r bound acc s = (some (repeatedly r bound acc s).1, (repeatedly r bound acc s).2)
  | 0, acc, s => by
    unfold upTo repeatedly
    change andThen (Rule.optional r) _ s = _
    simp only [andThen, Rule.optional]
    rcases r s with ⟨_ | a, s'⟩ <;> rfl
  | bound + 1, acc, s => by
    unfold upTo repeatedly
    change andThen (Rule.optional r) _ s = _
    simp only [andThen, Rule.optional]
    rcases r s with ⟨_ | a, s'⟩
    · rfl
    · exact upTo_eq r bound (a :: acc) s'

theorem many_eq (r : Rule α) : many r = fun s => upTo r s.left [] s := by
  funext s
  exact (upTo_eq r s.left [] s).symm

theorem Agrees.upTo (h : r.Agrees r') :
    ∀ (bound : Nat) (acc : List α), (upTo r bound acc).Agrees (upTo r' bound acc)
  | 0, acc => by
    apply h.optional.bind
    rintro (_ | a)
    · exact agrees_pure acc.reverse
    · exact agrees_pure (a :: acc).reverse
  | bound + 1, acc => by
    apply h.optional.bind
    rintro (_ | a)
    · exact agrees_pure acc.reverse
    · exact h.upTo bound (a :: acc)

theorem Agrees.many (h : r.Agrees r') : (many r).Agrees (many r') := by
  rw [many_eq, many_eq]
  exact Agrees.by_place (fun n => h.upTo n []) State.left fun _ _ => rfl

end Rule

theorem Plan.agrees {α : Type} (p : Plan α) : p.rule.Agrees p.rule := by
  induction p with
  | pure a => exact Rule.agrees_pure a
  | bind p f ihp ihf => exact ihp.bind ihf
  | fail e => exact fun s => (Rule.gives_fail e s).ends.agrees (Rule.gives_fail e s).ends
  | never => exact fun s => (Rule.gives_never s).ends.agrees (Rule.gives_never s).ends
  | terminal accepts e => exact Rule.agrees_terminal accepts e
  | blanks => exact fun s => (Rule.gives_blanks s).ends.agrees (Rule.gives_blanks s).ends
  | cursor => exact fun s => (Rule.gives_cursor s).ends.agrees (Rule.gives_cursor s).ends
  | slice span =>
    intro s
    have h : (Rule.slice span).Ends s (some (s.text.extract span.start span.stop).toList) s.cursor :=
      fun log => ⟨log, rfl⟩
    exact h.agrees h
  | attempt p ih => exact ih.attempt.agrees
  | notAhead p ih => exact ih.notAhead
  | nested p ih => exact ih.nested
  | orElse p q ihp ihq => exact ihp.orElse ihq
  | optional p ih => exact ih.optional
  | many p ih => exact ih.many
  | levels f ih => exact Rule.Agrees.by_place ih _ fun _ _ => rfl

theorem Plan.standsFor {α : Type} {p : Plan α} (h : p.Restores) : p.rule.StandsFor p.rule := by
  intro s
  obtain ⟨found, j, hp, hp'⟩ := p.agrees s
  refine ⟨found, j, hp, hp', ?_⟩
  rintro rfl
  obtain ⟨new, hrun⟩ := hp s.failures
  have hback := p.cursor_of_restores h s
  rw [show p.rule s = _ from hrun] at hback
  exact hback rfl

end FuncScript
