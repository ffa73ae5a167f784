import FuncScript.Proofs.Compositional
import FuncScript.Proofs.Wording

/-!
What is noted is true. Whatever path a rule takes through a text, all that the log expects at the
furthest place is refused by the character that stands there, and none of it is the end of the text.
-/

namespace FuncScript

structure Expectation.Fits (text : Array Char) (offset : Nat) (e : Expectation) : Prop where
  refuses : ∀ c, text[offset]? = some c → e.admits c = false
  inner : e ≠ .endOfInput
  presentable : Presentable e.describe.toList

structure FailureLog.Honest (text : Array Char) (log : FailureLog) : Prop where
  within : log.furthest ≤ text.size
  fits : ∀ e ∈ log.expected, e.Fits text log.furthest

structure State.Honest (text : Array Char) (s : State) : Prop where
  same : s.text = text
  cursor : s.cursor ≤ text.size
  failures : s.failures.Honest text

/-- The invariant is carried through any run of the rule, whether it succeeds or fails. -/
def Rule.Keeps {α : Type} (r : Rule α) : Prop :=
  ∀ ⦃text : Array Char⦄ ⦃s : State⦄, s.Honest text → (r s).2.Honest text

variable {α β : Type} {text : Array Char} {log : FailureLog} {s : State} {e : Expectation}

theorem FailureLog.honest_empty (text : Array Char) : FailureLog.Honest text {} :=
  ⟨Nat.zero_le _, by simp⟩

theorem FailureLog.Honest.record (h : log.Honest text) {offset : Nat} (ho : offset ≤ text.size)
    (he : e.Fits text offset) : (log.record offset e).Honest text := by
  unfold FailureLog.record FailureLog.force
  split
  · split
    · exact h
    split
    · refine ⟨ho, ?_⟩
      rintro e' he'
      obtain rfl := List.mem_singleton.mp he'
      exact he
    · next hlt hgt =>
      obtain rfl : offset = log.furthest := by omega
      refine ⟨h.within, ?_⟩
      intro e' he'
      rcases List.mem_append.mp he' with he' | he'
      · exact h.fits e' he'
      · obtain rfl := List.mem_singleton.mp he'
        exact he
  · exact h

theorem State.Honest.expecting (h : s.Honest text) (he : e.Fits text s.cursor) :
    (s.expecting e).Honest text :=
  ⟨h.same, h.cursor, h.failures.record h.cursor he⟩

theorem State.Honest.advance (h : s.Honest text) {c : Char} (hc : s.peek = some c) :
    s.advance.Honest text := by
  refine ⟨h.same, ?_, h.failures⟩
  rw [State.peek, h.same] at hc
  have hlt := (Array.getElem?_eq_some_iff.mp hc).1
  simp only [State.advance]
  omega

theorem Expectation.fits_other {description : String} (h : Presentable description.toList)
    (offset : Nat) : (Expectation.other description).Fits text offset :=
  ⟨fun _ _ => rfl, Expectation.noConfusion, h⟩

namespace Rule

theorem keeps_pure (a : α) : (pure a : Rule α).Keeps := fun _ _ h => h

theorem Keeps.bind {r : Rule α} {f : α → Rule β} (hr : r.Keeps) (hf : ∀ a, (f a).Keeps) :
    (r >>= f).Keeps := by
  intro text s h
  have hs := hr h
  rcases hrs : r s with ⟨_ | a, s'⟩ <;> rw [hrs] at hs
  · rwa [bind_of_none hrs]
  · rw [bind_of_some hrs]
    exact hf a hs

theorem keeps_fail_other {description : String} (h : Presentable description.toList) :
    (fail (.other description) : Rule α).Keeps :=
  fun _ s hs => hs.expecting (Expectation.fits_other h s.cursor)

theorem keeps_never : (never : Rule α).Keeps := fun _ _ h => h

theorem keeps_cursor : cursor.Keeps := fun _ _ h => h

theorem Keeps.attempt {r : Rule α} (hr : r.Keeps) : (attempt r).Keeps := by
  intro text s h
  have hs := hr h
  rcases hrs : r s with ⟨_ | a, s'⟩ <;> rw [hrs] at hs
  · rw [attempt_of_none hrs]
    exact ⟨hs.same, h.cursor, hs.failures⟩
  · rwa [attempt_of_some hrs]

theorem Keeps.notAhead {r : Rule α} (hr : r.Keeps) : (notAhead r).Keeps := by
  intro text s h
  have hq : State.Honest text { s with failures := s.failures.suppress.2 } :=
    ⟨h.same, h.cursor, h.failures.within, h.failures.fits⟩
  have hs := hr hq
  exact ⟨hs.same, h.cursor, hs.failures.within, hs.failures.fits⟩

theorem presentable_tooDeep (limit : Nat) : Presentable (tooDeep limit).describe.toList := by
  have hdigits : Presentable (toString limit).toList := by
    rw [Nat.toString_eq_repr, Nat.toList_repr]
    have digit : ∀ c ∈ Nat.toDigits 10 limit, c.isDigit = true := fun c hc =>
      Nat.isDigit_of_mem_toDigits (by decide) (by decide) hc
    constructor
    · intro c hc
      have hd := digit c hc
      simp only [Char.isDigit, Bool.and_eq_true, decide_eq_true_eq, ge_iff_le, UInt32.le_iff_toNat_le]
        at hd
      change 48 ≤ c.toNat ∧ c.toNat ≤ 57 at hd
      unfold IsControl
      omega
    · intro h
      have hn := digit 'n' (h.subset (by decide))
      exact absurd hn (by decide)
  have hwords : Presentable "nesting depth of at most".toList :=
    presentable_words _ (by simp)
  have h := hwords.space hdigits
  simpa [tooDeep, Expectation.describe] using h

theorem Keeps.nested {r : Rule α} (hr : r.Keeps) : (nested r).Keeps := by
  intro text s h
  rcases Nat.lt_or_ge s.depth s.limit with hd | hd
  · rw [nested_of_lt hd]
    have hdeeper : State.Honest text s.deeper := ⟨h.same, h.cursor, h.failures⟩
    have hs := hr hdeeper
    exact ⟨hs.same, hs.cursor, hs.failures⟩
  · rw [nested_of_le hd]
    exact h.expecting (Expectation.fits_other (presentable_tooDeep s.limit) s.cursor)

theorem Keeps.orElse {r r' : Rule α} (hr : r.Keeps) (hr' : r'.Keeps) : (orElse r r').Keeps := by
  intro text s h
  have hs := hr h
  rcases hrs : r s with ⟨_ | a, s'⟩ <;> rw [hrs] at hs
  · rw [orElse_of_none hrs]
    exact hr' hs
  · rwa [orElse_of_some hrs]

theorem Keeps.optional {r : Rule α} (hr : r.Keeps) : (optional r).Keeps := fun _ _ h => hr h

theorem Keeps.many {r : Rule α} (hr : r.Keeps) : (many r).Keeps := fun {text} s h =>
  rel_repeatedly (I := State.Honest text) (R := fun _ t => t.Honest text) (fun _ _ _ _ h₂ => h₂)
    (fun s t a h₁ hrun => by simpa [hrun] using hr h₁) (fun _ hs => hr hs) s.left [] s h

theorem keeps_terminal {accepts : Char → Bool} (ha : ∀ c, e.admits c = accepts c)
    (hi : e ≠ .endOfInput) (hp : Presentable e.describe.toList) : (terminal accepts e).Keeps := by
  intro text s h
  have hpeek : s.peek = text[s.cursor]? := by rw [State.peek, h.same]
  rcases terminal_cases accepts e s with ⟨c, hc, -, hrun⟩ | ⟨hno, hrun⟩ <;> rw [hrun]
  · exact h.advance hc
  · refine h.expecting ⟨?_, hi, hp⟩
    intro c hat
    rw [← hpeek] at hat
    rw [ha, hno c hat]

theorem keeps_literal (c : Char) : (literal c).Keeps := by
  apply keeps_terminal
  · intro d
    rw [Bool.eq_iff_iff]
    simp only [Expectation.admits, String.toList_ofList, beq_iff_eq, List.cons.injEq, and_true]
    exact eq_comm
  · exact Expectation.noConfusion
  · simp only [Expectation.describe, String.toList_ofList]
    exact Describe.presentable_quoted c

theorem keeps_oneOf {k : CharClass} (h : Presentable (Describe.bracketed k)) : (oneOf k).Keeps := by
  apply keeps_terminal
  · intro c
    rfl
  · exact Expectation.noConfusion
  · simpa only [Expectation.describe, String.toList_ofList] using h

theorem keeps_anyChar : anyChar.Keeps :=
  keeps_terminal (fun _ => rfl) Expectation.noConfusion
    (presentable_words "any character" (by simp))

theorem keeps_blanks : blanks.Keeps := by
  have skip : ∀ {text : Array Char} (bound : Nat) {s : State}, s.Honest text →
      (skipBlanks bound s).Honest text := by
    intro text bound
    induction bound with
    | zero => exact fun h => h
    | succ bound ih =>
      intro s h
      unfold skipBlanks
      cases hc : s.peek with
      | none => exact h
      | some c =>
        dsimp only
        split
        · exact ih (h.advance hc)
        · exact h
  exact fun _ s h => skip s.left h

theorem presentable_named : ∀ k ∈ CharClass.named, Presentable (Describe.bracketed k) := by
  decide +kernel

theorem presentable_letter (k : Keyword) :
    ∀ c ∈ k.letters, Presentable (Describe.bracketed (.letter c)) := by
  have hall : k.letters.all (fun c => decide (Presentable (Describe.bracketed (.letter c)))) =
      true := by
    cases k <;> decide +kernel
  exact fun c hc => of_decide_eq_true (List.all_eq_true.mp hall c hc)

theorem compositional_keeps : Plan.Compositional fun p => p.rule.Keeps where
  pure := keeps_pure
  not_finite := keeps_fail_other (presentable_words "finite number" (by simp))
  literal {c} _ := keeps_literal c
  oneOf hk := keeps_oneOf (presentable_named _ hk)
  letter k c hc := keeps_oneOf (presentable_letter k c hc)
  blanks := keeps_blanks
  bind h h' := h.bind h'
  attempt h := h.attempt
  optional h := h.optional
  many h _ := h.many
  orElse h h' := h.orElse h'
  last h := h.orElse keeps_never

theorem keeps_value : Plan.value.rule.Keeps := fun _ s h =>
  compositional_keeps.valueWithin Keeps.nested keeps_never (s.limit - s.depth) h

theorem keeps_block : Plan.block.rule.Keeps := by
  have hQ := compositional_keeps
  have hahead (k : Keyword) : (Plan.notAhead (.keyword k)).rule.Keeps := (hQ.keyword k).notAhead
  have hwithin := hQ.blockWithin hahead keeps_anyChar Keeps.nested keeps_cursor keeps_never
  exact fun _ s h => hwithin (s.limit - s.depth) h

theorem keeps_slice (span : Span) : (slice span).Keeps := fun _ _ h => h

theorem keeps_definition : definition.Keeps := by
  have hQ := compositional_keeps
  have hobject : (Plan.object Plan.value).rule.Keeps := hQ.object hQ Keeps.nested keeps_value
  rw [← Plan.rule_definition]
  exact hQ.attempt <| hQ.blanks_before <| hQ.before (hQ.keyword .func) <| hQ.blanks_before <|
    hQ.bind hQ.name fun _ => hQ.blanks_before <| hQ.bind hobject fun _ => hQ.blanks_before <|
      hQ.bind keeps_block fun _ => hQ.bind (p := .slice _) (keeps_slice _) fun _ =>
        hQ.map hQ.annotations

end Rule

end FuncScript
