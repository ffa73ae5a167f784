import FuncScript.Proofs.Plan

/-!
What every rule keeps to, in whatever state it is run. It gives back the depth and the reporting it
was given, stays inside the text, and goes back to where it began if it fails; a rule of the grammar
moves on if it succeeds.
-/

namespace FuncScript

variable {α β γ : Type} {s s' t : State} {p : Plan α}

def State.quiet (s : State) : State := { s with failures := s.failures.suppress.2 }

/-- What a run leaves as it was, and how far it may go. -/
structure State.Intact (s s' : State) : Prop where
  text : s'.text = s.text
  limit : s'.limit = s.limit
  depth : s'.depth = s.depth
  reporting : s'.failures.reporting = s.failures.reporting
  advanced : s.cursor ≤ s'.cursor
  within : s'.cursor ≤ s'.text.size
  furthest : s.failures.furthest ≤ s'.failures.furthest
  quiet : s.failures.reporting = false → s'.failures = s.failures

namespace State.Intact

theorem refl (h : s.cursor ≤ s.text.size) : s.Intact s :=
  ⟨rfl, rfl, rfl, rfl, Nat.le_refl _, h, Nat.le_refl _, fun _ => rfl⟩

theorem trans (h : s.Intact s') (h' : s'.Intact t) : s.Intact t where
  text := h'.text.trans h.text
  limit := h'.limit.trans h.limit
  depth := h'.depth.trans h.depth
  reporting := h'.reporting.trans h.reporting
  advanced := Nat.le_trans h.advanced h'.advanced
  within := h'.within
  furthest := Nat.le_trans h.furthest h'.furthest
  quiet hq := (h'.quiet (h.reporting.trans hq)).trans (h.quiet hq)

theorem back (h : s.Intact s') (hs : s.cursor ≤ s.text.size) :
    s.Intact { s' with cursor := s.cursor } :=
  ⟨h.text, h.limit, h.depth, h.reporting, Nat.le_refl _, h.text ▸ hs, h.furthest, h.quiet⟩

theorem expecting (h : s.cursor ≤ s.text.size) (e : Expectation) : s.Intact (s.expecting e) :=
  ⟨rfl, rfl, rfl, FailureLog.record_reporting _ _ _, Nat.le_refl _, h,
    FailureLog.furthest_le_record _ _ _, fun hq => by simp [State.expecting, FailureLog.record, hq]⟩

theorem moved {n : Nat} (h : s.cursor + n ≤ s.text.size) : s.Intact (s.moved n) :=
  ⟨rfl, rfl, rfl, rfl, Nat.le_add_right _ _, h, Nat.le_refl _, fun _ => rfl⟩

end State.Intact

namespace Rule

variable {r r' : Rule α}

def LeavesIntact (r : Rule α) : Prop := ∀ s : State, s.cursor ≤ s.text.size → s.Intact (r s).2

theorem LeavesIntact.bind {f : α → Rule β} (hr : r.LeavesIntact) (hf : ∀ a, (f a).LeavesIntact) :
    (r >>= f).LeavesIntact := by
  intro s h
  have h₁ := hr s h
  rcases hrun : r s with ⟨_ | a, t⟩ <;> rw [hrun] at h₁
  · rw [bind_of_none hrun]
    exact h₁
  · rw [bind_of_some hrun]
    exact h₁.trans (hf a t h₁.within)

theorem leavesIntact_terminal (accepts : Char → Bool) (e : Expectation) :
    (terminal accepts e).LeavesIntact := by
  intro s h
  rcases terminal_cases accepts e s with ⟨c, hp, -, hrun⟩ | ⟨-, hrun⟩ <;> rw [hrun]
  · exact .moved (n := 1) (Array.getElem?_eq_some_iff.mp hp).1
  · exact .expecting h e

theorem leavesIntact_blanks : blanks.LeavesIntact := by
  intro s _
  change s.Intact (skipBlanks s.left s)
  rw [skipBlanks_eq s.left s (Nat.le_refl _)]
  apply State.Intact.moved
  have hle := (List.takeWhile_prefix CharClass.whitespace.contains (l := s.rest)).length_le
  rw [State.length_rest, State.left] at hle
  omega

theorem LeavesIntact.attempt (hr : r.LeavesIntact) : (attempt r).LeavesIntact := by
  intro s h
  have h₁ := hr s h
  rcases hrun : r s with ⟨_ | a, t⟩ <;> rw [hrun] at h₁
  · rw [attempt_of_none hrun]
    exact h₁.back h
  · rw [attempt_of_some hrun]
    exact h₁

theorem LeavesIntact.notAhead (hr : r.LeavesIntact) : (notAhead r).LeavesIntact := by
  intro s h
  have h₁ := hr s.quiet h
  have hwithin : s.cursor ≤ (r s.quiet).2.text.size := by
    rw [h₁.text]
    exact h
  have hlog : (r s.quiet).2.failures.restore s.failures.reporting =
      s.quiet.failures.restore s.failures.reporting := by rw [h₁.quiet rfl]
  exact ⟨h₁.text, h₁.limit, h₁.depth, rfl, Nat.le_refl _, hwithin, h₁.furthest, fun _ => hlog⟩

theorem LeavesIntact.nested (hr : r.LeavesIntact) : (nested r).LeavesIntact := by
  intro s h
  rcases Nat.lt_or_ge s.depth s.limit with hd | hd
  · rw [nested_of_lt hd]
    have h₁ := hr s.deeper h
    refine ⟨h₁.text, h₁.limit, ?_, h₁.reporting, h₁.advanced, h₁.within, h₁.furthest, h₁.quiet⟩
    change (r s.deeper).2.depth - 1 = s.depth
    rw [h₁.depth]
    rfl
  · rw [nested_of_le hd]
    exact .expecting h _

theorem LeavesIntact.orElse (hr : r.LeavesIntact) (hr' : r'.LeavesIntact) :
    (orElse r r').LeavesIntact := by
  intro s h
  have h₁ := hr s h
  rcases hrun : r s with ⟨_ | a, t⟩ <;> rw [hrun] at h₁
  · rw [orElse_of_none hrun]
    exact h₁.trans (hr' t h₁.within)
  · rw [orElse_of_some hrun]
    exact h₁

theorem LeavesIntact.many (hr : r.LeavesIntact) : (many r).LeavesIntact := fun s h =>
  rel_repeatedly (fun _ _ _ h₁ h₂ => h₁.trans h₂)
    (fun s t a h₁ hrun => by simpa [hrun] using (hr s h₁).within) hr s.left [] s h

end Rule

namespace Plan

open Rule (bind_of_none bind_of_some attempt_of_none attempt_of_some orElse_of_none orElse_of_some
  nested_of_le nested_of_lt terminal_cases)

theorem intact (p : Plan α) : p.rule.LeavesIntact := by
  induction p with
  | pure | never | cursor | slice => exact fun s h => .refl h
  | bind p f ihp ihf => exact ihp.bind ihf
  | fail e => exact fun s h => .expecting h e
  | terminal accepts e => exact Rule.leavesIntact_terminal accepts e
  | blanks => exact Rule.leavesIntact_blanks
  | attempt p ih => exact ih.attempt
  | notAhead p ih => exact ih.notAhead
  | nested p ih => exact ih.nested
  | orElse p q ihp ihq => exact ihp.orElse ihq
  | optional p ih => exact ih
  | many p ih => exact ih.many
  | levels f ih => exact fun s h => ih _ s h

theorem intact_of_run {a : Option α} (hp : p.rule s = (a, s')) (hs : s.cursor ≤ s.text.size) :
    s.Intact s' := by
  have hi := p.intact s hs
  rwa [hp] at hi

theorem notAhead_eq (p : Plan α) (hs : s.cursor ≤ s.text.size) :
    (Rule.notAhead p.rule s).2 = s := by
  have h := p.intact s.quiet hs
  have hlog : (p.rule s.quiet).2.failures = s.quiet.failures := h.quiet rfl
  change { (p.rule s.quiet).2 with
    cursor := s.cursor
    failures := (p.rule s.quiet).2.failures.restore s.failures.reporting } = s
  dsimp only
  rw [h.text, h.limit, h.depth, hlog]
  rfl

def Total : {α : Type} → Plan α → Prop
  | _, .pure _ | _, .blanks | _, .cursor | _, .slice _ | _, .optional _ | _, .many _ => True
  | _, .fail _ | _, .never | _, .terminal _ _ | _, .notAhead _ | _, .nested _ => False
  | _, .bind p f => p.Total ∧ ∀ a, (f a).Total
  | _, .attempt p => p.Total
  | _, .orElse p q => p.Total ∨ q.Total
  | _, .levels f => ∀ n, (f n).Total

def Restores : {α : Type} → Plan α → Prop
  | _, .bind p f => p.Restores ∧ ∀ a, (f a).Total
  | _, .nested p => p.Restores
  | _, .orElse p q => p.Restores ∧ q.Restores
  | _, .levels f => ∀ n, (f n).Restores
  | _, .pure _ | _, .blanks | _, .cursor | _, .slice _ | _, .optional _ | _, .many _ => True
  | _, .fail _ | _, .never | _, .terminal _ _ | _, .notAhead _ | _, .attempt _ => True

def Moves : {α : Type} → Plan α → Prop
  | _, .bind p f => p.Moves ∨ ∀ a, (f a).Moves
  | _, .attempt p => p.Moves
  | _, .nested p => p.Moves
  | _, .orElse p q => p.Moves ∧ q.Moves
  | _, .levels f => ∀ n, (f n).Moves
  | _, .fail _ | _, .never | _, .terminal _ _ => True
  | _, .pure _ | _, .blanks | _, .cursor | _, .slice _ => False
  | _, .notAhead _ | _, .optional _ | _, .many _ => False

theorem found_of_total (p : Plan α) : p.Total → ∀ s, ∃ a s', p.rule s = (some a, s') := by
  induction p with
  | pure a => exact fun _ s => ⟨a, s, rfl⟩
  | bind p f ihp ihf =>
    intro h s
    obtain ⟨a, s', hp⟩ := ihp h.1 s
    obtain ⟨b, t, hf⟩ := ihf a (h.2 a) s'
    exact ⟨b, t, (bind_of_some hp).trans hf⟩
  | blanks => exact fun _ _ => ⟨_, _, rfl⟩
  | cursor => exact fun _ _ => ⟨_, _, rfl⟩
  | slice span => exact fun _ _ => ⟨_, _, rfl⟩
  | attempt p ih =>
    intro h s
    obtain ⟨a, s', hp⟩ := ih h s
    exact ⟨a, s', attempt_of_some hp⟩
  | orElse p q ihp ihq =>
    intro h s
    rcases hrun : p.rule s with ⟨_ | a, s'⟩
    · rcases h with h | h
      · obtain ⟨a, t, hp⟩ := ihp h s
        simp [hp] at hrun
      · obtain ⟨a, t, hq⟩ := ihq h s'
        exact ⟨a, t, (orElse_of_none hrun).trans hq⟩
    · exact ⟨a, s', orElse_of_some hrun⟩
  | optional p => exact fun _ _ => ⟨_, _, rfl⟩
  | many p => exact fun _ _ => ⟨_, _, rfl⟩
  | levels f ih => exact fun h s => ih _ (h _) s
  | fail | never | terminal | notAhead | nested => exact fun h => h.elim

theorem cursor_of_restores (p : Plan α) : p.Restores → ∀ s, (p.rule s).1 = none →
    (p.rule s).2.cursor = s.cursor := by
  induction p with
  | bind p f ihp ihf =>
    intro h s
    rcases hrun : p.rule s with ⟨_ | a, s'⟩
    · rw [rule_bind, bind_of_none hrun]
      exact fun _ => by simpa [hrun] using ihp h.1 s
    · obtain ⟨b, t, hf⟩ := found_of_total (f a) (h.2 a) s'
      rw [rule_bind, bind_of_some hrun, hf]
      simp
  | terminal accepts e =>
    intro _ s
    rcases terminal_cases accepts e s with ⟨c, -, -, hrun⟩ | ⟨-, hrun⟩ <;> rw [rule, hrun]
    · simp
    · exact fun _ => rfl
  | attempt p ih =>
    intro _ s
    rcases hrun : p.rule s with ⟨_ | a, s'⟩
    · rw [rule_attempt, attempt_of_none hrun]
      exact fun _ => rfl
    · rw [rule_attempt, attempt_of_some hrun]
      simp
  | nested p ih =>
    intro h s
    rcases Nat.lt_or_ge s.depth s.limit with hd | hd
    · rw [rule, nested_of_lt hd]
      exact ih h s.deeper
    · rw [rule, nested_of_le hd]
      exact fun _ => rfl
  | orElse p q ihp ihq =>
    intro h s
    rcases hrun : p.rule s with ⟨_ | a, s'⟩
    · have hp : s'.cursor = s.cursor := by simpa [hrun] using ihp h.1 s
      rw [rule, orElse_of_none hrun]
      exact fun hq => (ihq h.2 s' hq).trans hp
    · rw [rule, orElse_of_some hrun]
      simp
  | levels f ih => exact fun h s => ih _ (h _) s
  | fail | never | notAhead => exact fun _ _ _ => rfl
  | pure | blanks | cursor | slice | optional | many =>
    exact fun _ _ hnone => absurd hnone (Option.some_ne_none _)

theorem lt_of_moves (p : Plan α) : p.Moves → ∀ s a, s.cursor ≤ s.text.size →
    (p.rule s).1 = some a → s.cursor < (p.rule s).2.cursor := by
  induction p with
  | bind p f ihp ihf =>
    intro h s b hs
    rcases hrun : p.rule s with ⟨_ | a, s'⟩
    · rw [rule_bind, bind_of_none hrun]
      simp
    · rw [rule_bind, bind_of_some hrun]
      have h₁ := intact_of_run hrun hs
      intro hb
      -- One of the two parts moves on, and the other does not go back.
      rcases h with h | h
      · have hlt : s.cursor < s'.cursor := by simpa [hrun] using ihp h s a hs
        exact Nat.lt_of_lt_of_le hlt ((f a).intact s' h₁.within).advanced
      · exact Nat.lt_of_le_of_lt h₁.advanced (ihf a (h a) s' b h₁.within hb)
  | terminal accepts e =>
    intro _ s c _
    rcases terminal_cases accepts e s with ⟨c, -, -, hrun⟩ | ⟨-, hrun⟩ <;> rw [rule, hrun]
    · exact fun _ => Nat.lt_succ_self _
    · simp
  | attempt p ih =>
    intro h s a hs
    have hlt := ih h s a hs
    rcases hrun : p.rule s with ⟨_ | b, s'⟩
    · rw [rule_attempt, attempt_of_none hrun]
      simp
    · rw [rule_attempt, attempt_of_some hrun]
      simpa [hrun] using hlt
  | nested p ih =>
    intro h s a hs
    rcases Nat.lt_or_ge s.depth s.limit with hd | hd
    · rw [rule, nested_of_lt hd]
      exact ih h s.deeper a hs
    · rw [rule, nested_of_le hd]
      simp
  | orElse p q ihp ihq =>
    intro h s a hs
    have hlt := ihp h.1 s a hs
    rcases hrun : p.rule s with ⟨_ | b, s'⟩
    · rw [rule, orElse_of_none hrun]
      have h₁ := intact_of_run hrun hs
      exact fun hq => Nat.lt_of_le_of_lt h₁.advanced (ihq h.2 s' a h₁.within hq)
    · rw [rule, orElse_of_some hrun]
      simpa [hrun] using hlt
  | levels f ih => exact fun h s a hs => ih _ (h _) s a hs
  | fail | never => exact fun _ _ _ _ h => by simp [rule, Rule.fail, Rule.never] at h
  | pure | blanks | cursor | slice | notAhead | optional | many => exact fun h => h.elim

theorem restores_attempt (p : Plan α) : (attempt p).Restores := trivial

theorem restores_map {g : α → β} (h : p.Restores) : (map g p).Restores := ⟨h, fun _ => trivial⟩

theorem restores_choice : ∀ {ps : List (Plan α)}, (∀ p ∈ ps, p.Restores) → (choice ps).Restores
  | [], _ => trivial
  | _ :: _, h => ⟨(List.forall_mem_cons.mp h).1, restores_choice (List.forall_mem_cons.mp h).2⟩

theorem restores_name : name.Restores := ⟨trivial, fun _ => ⟨trivial, fun _ => trivial⟩⟩

theorem restores_boolean : boolean.Restores :=
  ⟨restores_map (restores_attempt _), restores_map (restores_attempt _)⟩

theorem restores_enclosed {opening closing : Char} {item : Plan α} :
    (enclosed opening closing item).Restores :=
  trivial

theorem restores_object {value : Plan α} : (object value).Restores :=
  restores_map restores_enclosed

theorem restores_alternatives {inner : Plan Value} : (choice (alternatives inner)).Restores := by
  apply restores_choice
  simp only [alternatives, List.forall_mem_cons, List.not_mem_nil, false_implies, implies_true,
    and_true]
  exact ⟨restores_map restores_object, restores_map restores_enclosed,
    restores_map (restores_attempt _), restores_map (restores_attempt _),
    restores_map restores_boolean⟩

theorem restores_value : value.Restores
  | 0 => restores_alternatives
  | _ + 1 => restores_alternatives

theorem restores_block : block.Restores
  | 0 => restores_attempt _
  | _ + 1 => restores_attempt _

theorem moves_bind_left {f : α → Plan β} (h : p.Moves) : (bind p f).Moves := .inl h

theorem moves_bind_right {f : α → Plan β} (h : ∀ a, (f a).Moves) : (bind p f).Moves := .inr h

theorem moves_attempt (h : p.Moves) : (attempt p).Moves := h

theorem moves_nested (h : p.Moves) : (nested p).Moves := h

theorem moves_oneOf (k : CharClass) : (oneOf k).Moves := trivial

theorem moves_literal (c : Char) : (literal c).Moves := trivial

theorem moves_choice : ∀ {ps : List (Plan α)}, (∀ p ∈ ps, p.Moves) → (choice ps).Moves
  | [], _ => trivial
  | _ :: _, h => ⟨(List.forall_mem_cons.mp h).1, moves_choice (List.forall_mem_cons.mp h).2⟩

theorem moves_keyword (k : Keyword) : (keyword k).Moves := by
  obtain ⟨c, cs, hk⟩ : ∃ c cs, k.letters = c :: cs := by cases k <;> exact ⟨_, _, rfl⟩
  rw [keyword, hk]
  exact moves_attempt (moves_bind_left (moves_oneOf _))

theorem moves_run (k k' : CharClass) (f : Char → List Char → β) : (run k k' f).Moves :=
  moves_bind_left (moves_oneOf k)

theorem moves_number : number.Moves := by
  have hwhole : wholeDigits.Moves := ⟨moves_bind_left (moves_literal '0'), moves_run _ _ _⟩
  exact moves_attempt (moves_bind_left (moves_bind_right fun _ => moves_bind_left hwhole))

theorem moves_escape : escape.Moves := moves_attempt (moves_bind_left (moves_literal '\\'))

theorem moves_fragment : fragment.Moves := by
  have hplain : plain.Moves := moves_choice (by simp [moves_oneOf, moves_literal])
  exact ⟨moves_bind_left moves_escape, moves_bind_left hplain⟩

theorem moves_string : string.Moves :=
  moves_attempt (moves_bind_right fun _ => moves_bind_left (moves_literal '"'))

theorem moves_boolean : boolean.Moves :=
  ⟨moves_bind_left (moves_keyword _), moves_bind_left (moves_keyword _)⟩

theorem moves_comma : comma.Moves :=
  moves_bind_right fun _ => moves_bind_left (moves_literal ',')

theorem moves_enclosed {opening closing : Char} {item : Plan α} :
    (enclosed opening closing item).Moves :=
  moves_nested (moves_attempt (moves_bind_right fun _ => moves_bind_left (moves_literal opening)))

theorem moves_object {value : Plan α} : (object value).Moves := moves_bind_left moves_enclosed

theorem moves_pair {value : Plan α} : (pair value).Moves :=
  moves_attempt (moves_bind_right fun _ => moves_bind_left (moves_run _ _ _))

theorem moves_alternatives {inner : Plan Value} : (choice (alternatives inner)).Moves := by
  apply moves_choice
  simp only [alternatives, List.forall_mem_cons, List.not_mem_nil, false_implies, implies_true,
    and_true]
  exact ⟨moves_bind_left moves_object, moves_bind_left moves_enclosed,
    moves_bind_left moves_number, moves_bind_left moves_string, moves_bind_left moves_boolean⟩

theorem moves_value : value.Moves
  | 0 => moves_alternatives
  | _ + 1 => moves_alternatives

theorem moves_bodyChar : bodyChar.Moves :=
  moves_attempt (moves_bind_right fun _ => moves_bind_right fun _ => trivial)

theorem moves_blockAround {inner : Plan Span} : (blockAround inner).Moves :=
  moves_nested (moves_attempt (moves_bind_left (moves_keyword _)))

theorem moves_block : block.Moves
  | 0 => moves_blockAround
  | _ + 1 => moves_blockAround

theorem moves_metadata : metadata.Moves :=
  moves_attempt (moves_bind_right fun _ => moves_bind_left (moves_literal '@'))

theorem moves_annotations : annotations.Moves := moves_attempt (moves_bind_left moves_metadata)

theorem moves_definition : definition.Moves :=
  moves_attempt (moves_bind_right fun _ => moves_bind_left (moves_keyword _))

end Plan

end FuncScript
